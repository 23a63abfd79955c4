import Mathlib.Data.List.Induction
import Mathlib.Data.List.Nodup

/-! # Insertion-ordered finite maps as association lists

An update replaces the value of the first entry that has the key, and appends an
entry when there is none. Read back as a map, the result of a list of updates
depends on its history alone: each key carries its last value, and the keys stand
in the order of their first update. -/
namespace OpenXPC.InsertionMap

variable {K V W : Type*} [DecidableEq K]

/-- Replace the value of the first entry with the key, if there is one. -/
def replace? (k : K) (v : V) : List (K × V) → Option (List (K × V))
  | [] => none
  | p :: ps => if p.1 = k then some ((p.1, v) :: ps) else (replace? k v ps).map (p :: ·)

def upsert (k : K) (v : V) (ps : List (K × V)) : List (K × V) :=
  (replace? k v ps).getD (ps ++ [(k, v)])

/-- The updates of a list, from the first on. -/
def build (sets : List (K × V)) : List (K × V) := sets.foldl (fun ps p => upsert p.1 p.2 ps) []

/-- The value of the last update of a key. -/
def lastSet (sets : List (K × V)) (k : K) : Option V := sets.reverse.lookup k

/-- The keys in the order of their first update. -/
def firstKeys (sets : List (K × V)) : List K := (sets.map Prod.fst).eraseDups

private theorem lookup_cons_ne {j : K} {p : K × V} {ps : List (K × V)} (h : j ≠ p.1) :
    (p :: ps).lookup j = ps.lookup j := by
  obtain ⟨k, v⟩ := p
  have hb : (j == k) = false := by simpa using h
  simp [List.lookup_cons, hb]

theorem replace?_eq_none_iff {k : K} {v : V} {ps : List (K × V)} :
    replace? k v ps = none ↔ k ∉ ps.map Prod.fst := by
  induction ps with
  | nil => simp [replace?]
  | cons p ps ih =>
    by_cases h : p.1 = k
    · simp [replace?, h]
    · simp [replace?, h, ih, Ne.symm h]

theorem replace?_keys {k : K} {v : V} {ps qs : List (K × V)} (h : replace? k v ps = some qs) :
    qs.map Prod.fst = ps.map Prod.fst := by
  induction ps generalizing qs with
  | nil => simp [replace?] at h
  | cons p ps ih =>
    by_cases hp : p.1 = k
    · simp only [replace?, hp, if_true, Option.some.injEq] at h
      subst h
      simp [hp]
    · simp only [replace?, hp, if_false, Option.map_eq_some_iff] at h
      obtain ⟨rs, hr, rfl⟩ := h
      simp [ih hr]

theorem replace?_length {k : K} {v : V} {ps qs : List (K × V)} (h : replace? k v ps = some qs) :
    qs.length = ps.length := by
  simpa using congrArg List.length (replace?_keys h)

theorem replace?_lookup {k : K} {v : V} {ps qs : List (K × V)} (h : replace? k v ps = some qs)
    (j : K) : qs.lookup j = if j = k then some v else ps.lookup j := by
  induction ps generalizing qs with
  | nil => simp [replace?] at h
  | cons p ps ih =>
    by_cases hp : p.1 = k
    · simp only [replace?, hp, if_true, Option.some.injEq] at h
      subst h
      by_cases hj : j = k
      · simp [hj]
      · rw [lookup_cons_ne hj, lookup_cons_ne (hp ▸ hj), if_neg hj]
    · simp only [replace?, hp, if_false, Option.map_eq_some_iff] at h
      obtain ⟨rs, hr, rfl⟩ := h
      by_cases hj : j = p.1
      · subst hj
        obtain ⟨k', w⟩ := p
        simpa using fun h => absurd h hp
      · rw [lookup_cons_ne hj, lookup_cons_ne hj, ih hr]

theorem upsert_of_mem {k : K} {v : V} {ps : List (K × V)} (h : k ∈ ps.map Prod.fst) :
    replace? k v ps = some (upsert k v ps) := by
  cases hr : replace? k v ps with
  | none => exact absurd h (replace?_eq_none_iff.mp hr)
  | some qs => simp [upsert, hr]

theorem upsert_of_notMem {k : K} {v : V} {ps : List (K × V)} (h : k ∉ ps.map Prod.fst) :
    upsert k v ps = ps ++ [(k, v)] := by
  simp [upsert, replace?_eq_none_iff.mpr h]

/-- Setting a key to the value it has changes nothing. -/
theorem upsert_of_lookup {k : K} {v : V} {ps : List (K × V)} (h : ps.lookup k = some v) :
    upsert k v ps = ps := by
  have hr : replace? k v ps = some ps := by
    induction ps with
    | nil => cases h
    | cons p ps ih =>
      obtain ⟨j, w⟩ := p
      by_cases hj : j = k
      · obtain rfl : w = v := by simpa [hj] using h
        simp [replace?, hj]
      · rw [lookup_cons_ne (Ne.symm hj)] at h
        simp [replace?, hj, ih h]
  simp [upsert, hr]

theorem notMem_of_lookup_eq_none {k : K} {ps : List (K × V)} (h : ps.lookup k = none) :
    k ∉ ps.map Prod.fst := by
  intro hk
  obtain ⟨p, hp, rfl⟩ := List.mem_map.mp hk
  have hne := List.lookup_eq_none_iff.mp h p hp
  simp at hne

theorem mem_of_lookup_eq_some {k : K} {v : V} {ps : List (K × V)} (h : ps.lookup k = some v) :
    k ∈ ps.map Prod.fst := by
  by_contra hk
  have hnone : ps.lookup k = none := List.lookup_eq_none_iff.mpr (fun p hp => by
    rw [bne_iff_ne]
    exact fun hpk => hk (hpk ▸ List.mem_map_of_mem hp))
  rw [hnone] at h
  cases h

theorem upsert_keys (k : K) (v : V) (ps : List (K × V)) :
    (upsert k v ps).map Prod.fst =
      if k ∈ ps.map Prod.fst then ps.map Prod.fst else ps.map Prod.fst ++ [k] := by
  by_cases h : k ∈ ps.map Prod.fst
  · rw [if_pos h, replace?_keys (upsert_of_mem h)]
  · rw [if_neg h, upsert_of_notMem h, List.map_append]
    rfl

theorem upsert_nodup {k : K} {v : V} {ps : List (K × V)} (h : (ps.map Prod.fst).Nodup) :
    ((upsert k v ps).map Prod.fst).Nodup := by
  rw [upsert_keys]
  split_ifs with hk
  · exact h
  · exact List.nodup_append.mpr ⟨h, List.nodup_singleton k, by
      rintro a ha b hb rfl
      exact hk (List.mem_singleton.mp hb ▸ ha)⟩

theorem lookup_of_mem {ps : List (K × V)} (hn : (ps.map Prod.fst).Nodup) {p : K × V}
    (hp : p ∈ ps) : ps.lookup p.1 = some p.2 := by
  induction ps with
  | nil => cases hp
  | cons q ps ih =>
    rw [List.map_cons, List.nodup_cons] at hn
    rcases List.mem_cons.mp hp with rfl | hp
    · obtain ⟨k, v⟩ := p
      simp
    · rw [lookup_cons_ne (fun he => hn.1 (he ▸ List.mem_map_of_mem hp)), ih hn.2 hp]

theorem lookup_upsert (k : K) (v : V) (ps : List (K × V)) (j : K) :
    (upsert k v ps).lookup j = if j = k then some v else ps.lookup j := by
  by_cases h : k ∈ ps.map Prod.fst
  · exact replace?_lookup (upsert_of_mem h) j
  · rw [upsert_of_notMem h, List.lookup_append]
    by_cases hj : j = k
    · subst hj
      have hn : ps.lookup j = none := List.lookup_eq_none_iff.mpr (fun p hp => by
        rw [bne_iff_ne]
        rintro rfl
        exact h (List.mem_map_of_mem hp))
      simp [hn]
    · rw [lookup_cons_ne hj, List.lookup_nil, Option.or_none, if_neg hj]

/-- In a list that has the key, the first entry with it is written. -/
theorem upsert_append_cons {k : K} {v w : V} {ps qs : List (K × V)} (h : k ∉ ps.map Prod.fst) :
    upsert k v (ps ++ (k, w) :: qs) = ps ++ (k, v) :: qs := by
  have hr : replace? k v (ps ++ (k, w) :: qs) = some (ps ++ (k, v) :: qs) := by
    induction ps with
    | nil => simp [replace?]
    | cons p ps ih =>
      rw [List.map_cons, List.mem_cons, not_or] at h
      rw [List.cons_append, replace?, if_neg (Ne.symm h.1), ih h.2]
      rfl
  rw [upsert, hr, Option.getD_some]

theorem upsert_cons_self (k : K) (v w : V) (ps : List (K × V)) :
    upsert k v ((k, w) :: ps) = (k, v) :: ps := by simp [upsert, replace?]

theorem upsert_cons_ne {k : K} {v : V} {p : K × V} {ps : List (K × V)} (h : p.1 ≠ k) :
    upsert k v (p :: ps) = p :: upsert k v ps := by
  unfold upsert
  rw [replace?, if_neg h]
  cases replace? k v ps <;> rfl

/-- Two keys are written in either order, when the one is there already. -/
theorem upsert_comm {k j : K} {v w : V} {ps : List (K × V)} (hne : k ≠ j) (h : k ∈ ps.map Prod.fst) :
    upsert k v (upsert j w ps) = upsert j w (upsert k v ps) := by
  induction ps with
  | nil => cases h
  | cons p ps ih =>
    obtain ⟨i, u⟩ := p
    by_cases hi : i = k
    · subst hi
      rw [upsert_cons_ne hne, upsert_cons_self, upsert_cons_self, upsert_cons_ne hne]
    · have hmem : k ∈ ps.map Prod.fst := (List.mem_cons.mp h).resolve_left (Ne.symm hi)
      by_cases hj : i = j
      · subst hj
        rw [upsert_cons_self, upsert_cons_ne hi, upsert_cons_ne hi, upsert_cons_self]
      · rw [upsert_cons_ne hj, upsert_cons_ne hi, upsert_cons_ne hi, upsert_cons_ne hj, ih hmem]

/-- Updating the values of all entries alike commutes with an update. -/
theorem upsert_map (f : V → W) (k : K) (v : V) (ps : List (K × V)) :
    upsert k (f v) (ps.map (fun p => (p.1, f p.2))) = (upsert k v ps).map (fun p => (p.1, f p.2)) := by
  have hr : replace? k (f v) (ps.map (fun p => (p.1, f p.2))) =
      (replace? k v ps).map (List.map (fun p => (p.1, f p.2))) := by
    induction ps with
    | nil => rfl
    | cons p ps ih =>
      by_cases hp : p.1 = k
      · simp [replace?, hp]
      · simp [replace?, hp, ih, Function.comp_def]
  rw [upsert, hr, upsert]
  cases replace? k v ps <;> simp

theorem pair_mem_of_lookup {k : K} {v : V} {ps : List (K × V)} (h : ps.lookup k = some v) :
    (k, v) ∈ ps := by
  obtain ⟨ps₁, ps₂, rfl, -⟩ := List.lookup_eq_some_iff.mp h
  simp

theorem lookup_map (f : V → W) (ps : List (K × V)) (k : K) :
    (ps.map (fun p => (p.1, f p.2))).lookup k = (ps.lookup k).map f := by
  induction ps with
  | nil => rfl
  | cons p ps ih =>
    obtain ⟨j, v⟩ := p
    by_cases hk : k = j
    · simp [hk]
    · rw [List.map_cons, lookup_cons_ne hk, lookup_cons_ne hk, ih]

/-- Two maps with the same values list the same entries, in some order. -/
theorem perm_of_lookup_eq {ps qs : List (K × V)} (hps : (ps.map Prod.fst).Nodup)
    (hqs : (qs.map Prod.fst).Nodup) (h : ∀ k, ps.lookup k = qs.lookup k) : ps.Perm qs := by
  refine (List.perm_ext_iff_of_nodup hps.of_map hqs.of_map).mpr (fun p => ?_)
  constructor
  · exact fun hp => pair_mem_of_lookup ((h p.1).symm.trans (lookup_of_mem hps hp))
  · exact fun hp => pair_mem_of_lookup ((h p.1).trans (lookup_of_mem hqs hp))

theorem build_append (sets more : List (K × V)) :
    build (sets ++ more) = more.foldl (fun ps p => upsert p.1 p.2 ps) (build sets) := by
  simp [build, List.foldl_append]

theorem build_snoc (sets : List (K × V)) (k : K) (v : V) :
    build (sets ++ [(k, v)]) = upsert k v (build sets) := by
  simp [build_append]

/-- A map is its keys in order, each with its value. -/
theorem filterMap_keys {ps : List (K × V)} (hn : (ps.map Prod.fst).Nodup) :
    (ps.map Prod.fst).filterMap (fun k => (ps.lookup k).map (k, ·)) = ps := by
  have hpair : ∀ p ∈ ps, (ps.lookup p.1).map (p.1, ·) = some p := by
    intro p hp
    rw [lookup_of_mem hn hp]
    rfl
  rw [List.filterMap_map]
  exact (List.filterMap_congr hpair).trans List.filterMap_some

theorem mem_of_mem_upsert {k : K} {v : V} {ps : List (K × V)} {p : K × V}
    (hp : p ∈ upsert k v ps) : p = (k, v) ∨ p ∈ ps := by
  by_cases hk : k ∈ ps.map Prod.fst
  · have hreplace : ∀ qs, replace? k v ps = some qs → p ∈ qs → p = (k, v) ∨ p ∈ ps := by
      clear hp hk
      induction ps with
      | nil => simp [replace?]
      | cons q ps ih =>
        intro qs hq hp
        simp only [replace?] at hq
        split_ifs at hq with hqk
        · cases hq
          rcases List.mem_cons.mp hp with rfl | hp
          · exact .inl (by rw [hqk])
          · exact .inr (List.mem_cons_of_mem q hp)
        · obtain ⟨rs, hrs, rfl⟩ := Option.map_eq_some_iff.mp hq
          rcases List.mem_cons.mp hp with rfl | hp
          · exact .inr List.mem_cons_self
          · exact (ih rs hrs hp).imp id (List.mem_cons_of_mem q)
    exact hreplace _ (upsert_of_mem hk) hp
  · rw [upsert_of_notMem hk] at hp
    simpa [or_comm] using hp

theorem mem_of_mem_build {sets : List (K × V)} {p : K × V} (hp : p ∈ build sets) : p ∈ sets := by
  induction sets using List.reverseRecOn with
  | nil => exact hp
  | append_singleton sets q ih =>
    rw [build_snoc sets q.1 q.2] at hp
    rcases mem_of_mem_upsert hp with rfl | hp
    · simp
    · exact List.mem_append_left _ (ih hp)

theorem lookup_build (sets : List (K × V)) (k : K) : (build sets).lookup k = lastSet sets k := by
  induction sets using List.reverseRecOn with
  | nil => rfl
  | append_singleton sets p ih =>
    obtain ⟨j, v⟩ := p
    rw [build_snoc, lookup_upsert, ih]
    by_cases hk : k = j
    · simp [lastSet, hk]
    · have hb : (k == j) = false := by simpa using hk
      simp [lastSet, hk, List.lookup_cons, hb]

theorem keys_build (sets : List (K × V)) : (build sets).map Prod.fst = firstKeys sets := by
  induction sets using List.reverseRecOn with
  | nil => rfl
  | append_singleton sets p ih =>
    obtain ⟨k, v⟩ := p
    rw [build_snoc, upsert_keys, ih]
    simp only [firstKeys, List.map_append, List.map_cons, List.map_nil, List.eraseDups_append,
      List.mem_eraseDups]
    by_cases hk : k ∈ sets.map Prod.fst
    · simp [hk, List.removeAll]
    · simp [hk, List.removeAll, List.eraseDups_cons]

theorem nodup_build (sets : List (K × V)) : ((build sets).map Prod.fst).Nodup := by
  induction sets using List.reverseRecOn with
  | nil => exact List.nodup_nil
  | append_singleton sets p ih =>
    rw [build_snoc sets p.1 p.2]
    exact upsert_nodup ih

/-- Every key once, in the order of the first updates, with the value of its last. -/
theorem build_eq_filterMap (sets : List (K × V)) :
    build sets = (firstKeys sets).filterMap (fun k => (lastSet sets k).map (k, ·)) := by
  rw [← keys_build, ← funext (lookup_build sets)]
  exact (filterMap_keys (nodup_build sets)).symm

theorem build_map (f : V → W) (sets : List (K × V)) :
    build (sets.map (fun p => (p.1, f p.2))) = (build sets).map (fun p => (p.1, f p.2)) := by
  induction sets using List.reverseRecOn with
  | nil => rfl
  | append_singleton sets p ih =>
    rw [List.map_append, List.map_singleton, build_snoc, ih, upsert_map, build_snoc sets p.1 p.2]

/-- Updates with pairwise distinct keys are just listed. -/
theorem build_eq_self {sets : List (K × V)} (h : (sets.map Prod.fst).Nodup) :
    build sets = sets := by
  induction sets using List.reverseRecOn with
  | nil => rfl
  | append_singleton sets p ih =>
    rw [List.map_append, List.nodup_append] at h
    obtain ⟨hs, -, hp⟩ := h
    rw [build_snoc sets p.1 p.2, ih hs]
    exact upsert_of_notMem (fun hm => hp _ hm p.1 (by simp) rfl)

section Related

theorem forall₂_imp_of_mem {α β : Type*} {R S : α → β → Prop} {xs : List α} {ys : List β}
    (h : List.Forall₂ R xs ys) (hrs : ∀ x, ∀ y ∈ ys, R x y → S x y) : List.Forall₂ S xs ys := by
  induction h with
  | nil => exact .nil
  | @cons x y xs ys hxy _ ih =>
    refine .cons (hrs x y List.mem_cons_self hxy) (ih ?_)
    exact fun x' y' hy' => hrs x' y' (List.mem_cons_of_mem y hy')

theorem eq_of_forall₂_of_mem {α β : Type*} {R : α → β → Prop} {xs : List α} {ys zs : List β}
    (hy : List.Forall₂ R xs ys) (hz : List.Forall₂ R xs zs)
    (hrs : ∀ x, ∀ y ∈ ys, ∀ z, R x y → R x z → y = z) : ys = zs := by
  induction hy generalizing zs with
  | nil =>
    cases hz
    rfl
  | @cons x y xs ys hxy _ ih =>
    cases hz with
    | @cons _ z _ zs hxz hz =>
      rw [hrs x y List.mem_cons_self z hxy hxz, ih hz (fun x' y' hy' =>
        hrs x' y' (List.mem_cons_of_mem y hy'))]

theorem exists_right_of_forall₂ {α β : Type*} {R : α → β → Prop} {xs : List α} {ys : List β}
    (h : List.Forall₂ R xs ys) {x : α} (hx : x ∈ xs) : ∃ y ∈ ys, R x y := by
  induction h with
  | nil => cases hx
  | @cons x' y xs ys hxy _ ih =>
    rcases List.mem_cons.mp hx with rfl | hx
    · exact ⟨y, List.mem_cons_self, hxy⟩
    · obtain ⟨z, hz, hxz⟩ := ih hx
      exact ⟨z, List.mem_cons_of_mem y hz, hxz⟩

theorem exists_left_of_forall₂ {α β : Type*} {R : α → β → Prop} {xs : List α} {ys : List β}
    (h : List.Forall₂ R xs ys) {y : β} (hy : y ∈ ys) : ∃ x ∈ xs, R x y :=
  exists_right_of_forall₂ h.flip hy

/-- The same keys in the same order, with related values. -/
def Related (R : V → W → Prop) (ps : List (K × V)) (qs : List (K × W)) : Prop :=
  List.Forall₂ (fun p q => p.1 = q.1 ∧ R p.2 q.2) ps qs

variable {R : V → W → Prop} {ps : List (K × V)} {qs : List (K × W)}

omit [DecidableEq K] in
theorem Related.mono {S : V → W → Prop} (h : Related R ps qs)
    (hrs : ∀ q ∈ qs, ∀ v, R v q.2 → S v q.2) : Related S ps qs :=
  forall₂_imp_of_mem h (fun _ q hq hr => ⟨hr.1, hrs q hq _ hr.2⟩)

omit [DecidableEq K] in
theorem Related.keys (h : Related R ps qs) : ps.map Prod.fst = qs.map Prod.fst := by
  induction h with
  | nil => rfl
  | cons hpq _ ih => simp [hpq.1, ih]

omit [DecidableEq K] in
theorem Related.append (h : Related R ps qs) (k : K) {v : V} {w : W} (hvw : R v w) :
    Related R (ps ++ [(k, v)]) (qs ++ [(k, w)]) :=
  List.rel_append h (.cons ⟨rfl, hvw⟩ .nil)

theorem Related.lookup (h : Related R ps qs) (k : K) :
    Option.Rel R (ps.lookup k) (qs.lookup k) := by
  induction h with
  | nil => exact .none
  | @cons p q ps qs hpq _ ih =>
    obtain ⟨j, v⟩ := p
    obtain ⟨j', w⟩ := q
    obtain ⟨rfl, hvw⟩ := hpq
    by_cases hk : k = j
    · simpa [hk] using Option.Rel.some hvw
    · rwa [lookup_cons_ne hk, lookup_cons_ne hk]

theorem Related.upsert (h : Related R ps qs) (k : K) {v : V} {w : W} (hvw : R v w) :
    Related R (upsert k v ps) (upsert k w qs) := by
  have hkeys := h.keys
  by_cases hk : k ∈ ps.map Prod.fst
  · have hreplace : ∀ ps' qs', replace? k v ps = some ps' → replace? k w qs = some qs' →
        Related R ps' qs' := by
      clear hkeys hk
      induction h with
      | nil => simp [replace?]
      | @cons p q ps qs hpq hrest ih =>
        intro ps' qs' hp hq
        simp only [replace?, ← hpq.1] at hp hq
        split_ifs at hp hq with hpk
        · cases hp
          cases hq
          exact .cons ⟨rfl, hvw⟩ hrest
        · obtain ⟨ps₁, hp₁, rfl⟩ := Option.map_eq_some_iff.mp hp
          obtain ⟨qs₁, hq₁, rfl⟩ := Option.map_eq_some_iff.mp hq
          exact .cons hpq (ih ps₁ qs₁ hp₁ hq₁)
    exact hreplace _ _ (upsert_of_mem hk) (upsert_of_mem (hkeys ▸ hk))
  · rw [upsert_of_notMem hk, upsert_of_notMem (hkeys ▸ hk)]
    exact h.append k hvw

end Related

end OpenXPC.InsertionMap
