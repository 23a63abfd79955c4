import OpenXPC.Containers

/-! # Loops over a container

What a callback does at one pair or element, the traversal does at all of them, up to
the first at which it stops or faults. -/
namespace OpenXPC

section Loops

variable {σ : Type} {I : σ → Prop} {e : Fault} {s : σ}

theorem applyPairs_preserves {f : CString → ObjId → σ → Except Fault (σ × Bool)}
    (hstep : ∀ k v s s' b, I s → f k v s = .ok (s', b) → I s') {ps : Pairs} {s' : σ} {b : Bool}
    (hs : I s) (he : applyPairs f ps s = .ok (s', b)) : I s' := by
  induction ps generalizing s with
  | nil =>
    cases he
    exact hs
  | cons p ps ih =>
    obtain ⟨⟨s₁, go⟩, h₁, he⟩ := bind_eq_ok.mp he
    have hs₁ := hstep p.1 p.2 s s₁ go hs h₁
    cases go with
    | true => exact ih hs₁ he
    | false =>
      cases he
      exact hs₁

theorem applyElems_preserves {f : ℕ → ObjId → σ → Except Fault (σ × Bool)}
    (hstep : ∀ i v s s' b, I s → f i v s = .ok (s', b) → I s') {es : List ObjId} {i : ℕ} {s' : σ}
    {b : Bool} (hs : I s) (he : Arrays.applyElems f i es s = .ok (s', b)) : I s' := by
  induction es generalizing i s with
  | nil =>
    cases he
    exact hs
  | cons x es ih =>
    obtain ⟨⟨s₁, go⟩, h₁, he⟩ := bind_eq_ok.mp he
    have hs₁ := hstep i x s s₁ go hs h₁
    cases go with
    | true => exact ih hs₁ he
    | false =>
      cases he
      exact hs₁

theorem applyPairs_ok {f : CString → ObjId → σ → Except Fault (σ × Bool)} {ps : Pairs}
    (hs : I s) (hstep : ∀ p ∈ ps, ∀ s, I s → ∃ s', f p.1 p.2 s = .ok (s', true) ∧ I s') :
    ∃ s', applyPairs f ps s = .ok (s', true) ∧ I s' := by
  induction ps generalizing s with
  | nil => exact ⟨s, rfl, hs⟩
  | cons p ps ih =>
    obtain ⟨s₁, he, hs₁⟩ := hstep p List.mem_cons_self s hs
    obtain ⟨s₂, hrest, hs₂⟩ := ih hs₁ (fun q hq => hstep q (List.mem_cons_of_mem p hq))
    exact ⟨s₂, by simp [applyPairs, he, hrest], hs₂⟩

/-- The loop stops at the first bad pair. -/
theorem applyPairs_error {f : CString → ObjId → σ → Except Fault (σ × Bool)} {ps : Pairs}
    (hs : I s) (hstep : ∀ p ∈ ps, (∀ s, I s → ∃ s', f p.1 p.2 s = .ok (s', true) ∧ I s') ∨
      ∀ s, I s → f p.1 p.2 s = .error e)
    (hbad : ∃ p ∈ ps, ∀ s, I s → f p.1 p.2 s = .error e) :
    applyPairs f ps s = .error e := by
  induction ps generalizing s with
  | nil =>
    obtain ⟨p, hp, -⟩ := hbad
    cases hp
  | cons p ps ih =>
    rcases hstep p List.mem_cons_self with hgood | hfail
    · obtain ⟨s₁, he, hs₁⟩ := hgood s hs
      obtain ⟨q, hq, hfail⟩ := hbad
      rcases List.mem_cons.mp hq with rfl | hq
      · rw [hfail s hs] at he
        cases he
      · have hrest := ih hs₁ (fun q hq => hstep q (List.mem_cons_of_mem p hq)) ⟨q, hq, hfail⟩
        simp [applyPairs, he, hrest]
    · simp [applyPairs, hfail s hs]

theorem applyElems_ok {f : ℕ → ObjId → σ → Except Fault (σ × Bool)} {es : List ObjId} {i : ℕ}
    (hs : I s) (hstep : ∀ x ∈ es, ∀ i s, I s → ∃ s', f i x s = .ok (s', true) ∧ I s') :
    ∃ s', Arrays.applyElems f i es s = .ok (s', true) ∧ I s' := by
  induction es generalizing i s with
  | nil => exact ⟨s, rfl, hs⟩
  | cons x es ih =>
    obtain ⟨s₁, he, hs₁⟩ := hstep x List.mem_cons_self i s hs
    obtain ⟨s₂, hrest, hs₂⟩ := @ih s₁ (i + 1) hs₁
      (fun y hy => hstep y (List.mem_cons_of_mem x hy))
    exact ⟨s₂, by simp [Arrays.applyElems, he, hrest], hs₂⟩

theorem applyElems_error {f : ℕ → ObjId → σ → Except Fault (σ × Bool)} {es : List ObjId}
    {i : ℕ} (hs : I s)
    (hstep : ∀ x ∈ es, (∀ i s, I s → ∃ s', f i x s = .ok (s', true) ∧ I s') ∨
      ∀ i s, I s → f i x s = .error e)
    (hbad : ∃ x ∈ es, ∀ i s, I s → f i x s = .error e) :
    Arrays.applyElems f i es s = .error e := by
  induction es generalizing i s with
  | nil =>
    obtain ⟨x, hx, -⟩ := hbad
    cases hx
  | cons x es ih =>
    rcases hstep x List.mem_cons_self with hgood | hfail
    · obtain ⟨s₁, he, hs₁⟩ := hgood i s hs
      obtain ⟨y, hy, hfail⟩ := hbad
      rcases List.mem_cons.mp hy with rfl | hy
      · rw [hfail i s hs] at he
        cases he
      · have hrest := @ih s₁ (i + 1) hs₁ (fun y hy => hstep y (List.mem_cons_of_mem x hy))
          ⟨y, hy, hfail⟩
        simp [Arrays.applyElems, he, hrest]
    · simp [Arrays.applyElems, hfail i s hs]

theorem applyPairs_congr {f g : CString → ObjId → σ → Except Fault (σ × Bool)}
    {ps : Pairs} (hfg : ∀ p ∈ ps, f p.1 p.2 = g p.1 p.2) (s : σ) :
    applyPairs f ps s = applyPairs g ps s := by
  induction ps generalizing s with
  | nil => rfl
  | cons p ps ih =>
    rw [List.forall_mem_cons] at hfg
    simp only [applyPairs, hfg.1, ih hfg.2]

theorem applyElems_congr {f g : ℕ → ObjId → σ → Except Fault (σ × Bool)}
    {es : List ObjId} (hfg : ∀ i, ∀ x ∈ es, f i x = g i x) (i : ℕ) (s : σ) :
    Arrays.applyElems f i es s = Arrays.applyElems g i es s := by
  induction es generalizing i s with
  | nil => rfl
  | cons x es ih =>
    have hrest : ∀ i, ∀ y ∈ es, f i y = g i y := fun i y hy => hfg i y (List.mem_cons_of_mem x hy)
    simp only [Arrays.applyElems, hfg i x List.mem_cons_self, ih hrest]

/-- The first outcome is the given fault, or the second one. -/
def AgreesUpTo {α : Type} (e : Fault) (r r' : Except Fault α) : Prop := r = .error e ∨ r = r'

theorem AgreesUpTo.refl {α : Type} (r : Except Fault α) : AgreesUpTo e r r := .inr rfl

theorem AgreesUpTo.bind {α β : Type} {r r' : Except Fault α} {f f' : α → Except Fault β}
    (hr : AgreesUpTo e r r') (hf : ∀ a, AgreesUpTo e (f a) (f' a)) :
    AgreesUpTo e (r >>= f) (r' >>= f') := by
  rcases hr with rfl | rfl
  · exact .inl rfl
  · cases r with
    | error e' => exact .inr rfl
    | ok a => exact hf a

theorem applyPairs_agree {f g : CString → ObjId → σ → Except Fault (σ × Bool)}
    (hfg : ∀ k x s, AgreesUpTo e (g k x s) (f k x s)) (ps : Pairs) (s : σ) :
    AgreesUpTo e (applyPairs g ps s) (applyPairs f ps s) := by
  induction ps generalizing s with
  | nil => exact .refl _
  | cons p ps ih =>
    refine (hfg p.1 p.2 s).bind (fun r => ?_)
    obtain ⟨s', go⟩ := r
    cases go with
    | true => exact ih s'
    | false => exact .refl _

theorem applyElems_agree {f g : ℕ → ObjId → σ → Except Fault (σ × Bool)}
    (hfg : ∀ i x s, AgreesUpTo e (g i x s) (f i x s)) (es : List ObjId) (i : ℕ) (s : σ) :
    AgreesUpTo e (Arrays.applyElems g i es s) (Arrays.applyElems f i es s) := by
  induction es generalizing i s with
  | nil => exact .refl _
  | cons x es ih =>
    refine (hfg i x s).bind (fun r => ?_)
    obtain ⟨s', go⟩ := r
    cases go with
    | true => exact ih (i + 1) s'
    | false => exact .refl _

end Loops

section Projection

variable {σ τ : Type} (g : σ → τ)

theorem applyPairs_map {f : CString → ObjId → σ → Except Fault (σ × Bool)}
    {f' : CString → ObjId → τ → Except Fault (τ × Bool)}
    (hf : ∀ k v s t, g s = t → (f k v s).map (fun r => (g r.1, r.2)) = f' k v t) (ps : Pairs) (s : σ) :
    (applyPairs f ps s).map (fun r => (g r.1, r.2)) = applyPairs f' ps (g s) := by
  induction ps generalizing s with
  | nil => rfl
  | cons p ps ih =>
    have hp := hf p.1 p.2 s _ rfl
    cases he : f p.1 p.2 s with
    | error e =>
      rw [he] at hp
      simp [applyPairs, he, ← hp, Except.map]
    | ok r =>
      obtain ⟨s₁, go⟩ := r
      rw [he] at hp
      cases go with
      | true => simp [applyPairs, he, ← hp, Except.map, ← ih]
      | false => simp [applyPairs, he, ← hp, Except.map]

theorem applyElems_map {f : ℕ → ObjId → σ → Except Fault (σ × Bool)}
    {f' : ℕ → ObjId → τ → Except Fault (τ × Bool)}
    (hf : ∀ i v s t, g s = t → (f i v s).map (fun r => (g r.1, r.2)) = f' i v t) (i : ℕ)
    (es : List ObjId) (s : σ) :
    (Arrays.applyElems f i es s).map (fun r => (g r.1, r.2)) = Arrays.applyElems f' i es (g s) := by
  induction es generalizing i s with
  | nil => rfl
  | cons x es ih =>
    have hx := hf i x s _ rfl
    cases he : f i x s with
    | error e =>
      rw [he] at hx
      simp [Arrays.applyElems, he, ← hx, Except.map]
    | ok r =>
      obtain ⟨s₁, go⟩ := r
      rw [he] at hx
      cases go with
      | true => simp [Arrays.applyElems, he, ← hx, Except.map, ← ih]
      | false => simp [Arrays.applyElems, he, ← hx, Except.map]

end Projection
end OpenXPC
