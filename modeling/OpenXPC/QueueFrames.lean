import OpenXPC.WellFormedQueues

/-! # Queues beside one another

Several heads in one link store. What is done to one queue leaves the others as they are,
when they have no element in common with it. -/
namespace OpenXPC.TailQueue.Links

variable {H E : Type*} [DecidableEq H] [DecidableEq E]
variable {q r : Links H E} {h k : H} {es ks : List E} {e : E}

omit [DecidableEq H] [DecidableEq E] in
/-- A queue depends on its own cells and backward links alone. -/
theorem WellFormed.frame (hk : q.WellFormed k ks)
    (hload : ∀ d ∈ (.first k :: ks.map .next : List (Cell H E)), r.load d = q.load d)
    (hlast : r.tqhLast k = q.tqhLast k) (hprev : ∀ x ∈ ks, r.tqePrev x = q.tqePrev x) :
    r.WellFormed k ks :=
  ⟨⟨hk.chain.congr hload, hlast.trans hk.last⟩, hk.back.congr hprev⟩

omit [DecidableEq H] [DecidableEq E] in
/-- The cells of two queues without a common element are different. -/
theorem cell_ne (hne : k ≠ h) (hd : ∀ x ∈ ks, x ∉ es) {c d : Cell H E}
    (hc : c ∈ (.first k :: ks.map .next : List (Cell H E)))
    (hd' : d ∈ (.first h :: es.map .next : List (Cell H E))) : c ≠ d := by
  rintro rfl
  rcases List.mem_cons.mp hc with rfl | hc
  · rcases List.mem_cons.mp hd' with heq | hd'
    · exact hne (Cell.first.inj heq)
    · obtain ⟨x, -, hx⟩ := List.mem_map.mp hd'
      cases hx
  · obtain ⟨x, hx, rfl⟩ := List.mem_map.mp hc
    rcases List.mem_cons.mp hd' with heq | hd'
    · cases heq
    · obtain ⟨y, hy, hyx⟩ := List.mem_map.mp hd'
      cases hyx
      exact hd x hx hy

/-! ## Initialising and inserting -/

theorem WellFormed.init_other (hk : q.WellFormed k ks) (hne : k ≠ h) : (q.init h).WellFormed k ks := by
  refine ⟨hk.toEnumerates.init_other hne, hk.back.congr fun x _ => ?_⟩
  rw [init, tqePrev_setLast, tqePrev_store]

theorem WellFormed.insertTail_other (hq : q.WellFormed h es) (hk : q.WellFormed k ks) (hne : k ≠ h)
    (he : e ∉ ks) (hd : ∀ x ∈ ks, x ∉ es) : (q.insertTail h e).WellFormed k ks := by
  refine hk.frame (fun d hdk => ?_) (q.tqhLast_insertTail_of_ne h e hne) fun x hx => ?_
  · have hfirst : d ≠ .first h := cell_ne hne hd hdk List.mem_cons_self
    refine hq.toEnumerates.load_insertTail_of_ne hfirst fun x hx heq => ?_
    subst heq
    have hxk : x ∈ ks := by simpa using hdk
    rcases List.mem_append.mp hx with hx | hx
    · exact hd x hxk hx
    · exact he (List.mem_singleton.mp hx ▸ hxk)
  · have hxe : x ≠ e := fun heq => he (heq ▸ hx)
    rw [Links.insertTail, tqePrev_setLast, tqePrev_store, tqePrev_setPrev, if_neg hxe, tqePrev_store]

/-! ## Removing the first element -/

section Removing

variable (hq : q.WellFormed h (e :: es))
include hq

omit [DecidableEq H] [DecidableEq E] in
theorem WellFormed.load_next_first : q.load (.next e) = es.head? := hq.chain.2.load_eq_head

omit [DecidableEq H] [DecidableEq E] in
theorem WellFormed.first_notMem : e ∉ es := (List.nodup_cons.mp hq.chain.nodup).1

theorem WellFormed.remove_first_eq : q.remove h e =
    (q.setBack h es.head? (.first h)).store (.first h) es.head? := by
  have hprev : q.tqePrev e = .first h := hq.back.1
  rw [remove_eq q h e, hprev, hq.load_next_first]

theorem WellFormed.remove_first : (q.remove h e).WellFormed h es := by
  have hchain := hq.chain.2
  have hback := hq.back.2
  rw [hq.remove_first_eq]
  cases es with
  | nil => exact ⟨⟨by simp [Chain], by simp [endCell]⟩, trivial⟩
  | cons b es =>
    have hnodup := (List.nodup_cons.mp hchain.nodup).1
    refine ⟨⟨⟨by simp, hchain.2.congr fun d hd => ?_⟩, ?_⟩, ?_, hback.2.congr fun x hx => ?_⟩
    · have hne : d ≠ .first h := by
        rintro rfl
        simp at hd
      simp [hne]
    · have hlast : q.tqhLast h = endCell (.next b) es := hq.last
      simp [hlast, endCell]
    · simp
    · have hxb : b ≠ x := fun heq => hnodup (heq ▸ hx)
      simp [hxb]

theorem WellFormed.remove_first_other (hk : q.WellFormed k ks) (hne : k ≠ h)
    (hd : ∀ x ∈ ks, x ∉ e :: es) : (q.remove h e).WellFormed k ks := by
  rw [hq.remove_first_eq]
  refine hk.frame (fun d hdk => ?_) (by simp [hne]) fun x hx => ?_
  · have hfirst : d ≠ .first h := cell_ne hne hd hdk List.mem_cons_self
    simp [hfirst]
  · have hhead : es.head? ≠ some x := fun heq =>
      hd x hx (List.mem_cons_of_mem e (List.mem_of_mem_head? heq))
    simp [hhead]

end Removing

end OpenXPC.TailQueue.Links
