import OpenXPC.BufferContents

/-! # Runs that append to a buffer

Whatever the drains take and whenever they fail, what they have taken and what the buffer
holds is together a beginning of what was appended. Storage that is extended grows by
doubling up to a page and by pages from there on, so few blocks are asked for. -/
namespace OpenXPC.StringBuffers
open Outcomes

variable {σ : Type} {gives : σ → ℤ → Bool × σ} {base : List ℕ} {st st' : State σ}
  {bytes added : List UInt8}

/-- The operations that append, and those that leave the text as it is. -/
def Appending : Op σ → Prop
  | .bcat _ => True
  | .cat _ => True
  | .printf fmt => fmt.result ≠ -1
  | .putc _ => True
  | .setDrain _ => True
  | .finish => True
  | .startSection => True
  | _ => False

/-- All that a run is asked to append. -/
def requested (ops : List (Op σ)) : List UInt8 := ops.flatMap (Op.bytes 0)

/-- Only printing into storage that cannot grow for want of memory loses bytes silently. -/
def Loses (gives : σ → ℤ → Bool × σ) (st : State σ) : Prop :=
  st.s.canExtend = true ∧ Refuses gives

/-- What a run does that is asked to append `bytes`, of which `added` are accepted. -/
structure Accepts (gives : σ → ℤ → Bool × σ) (bytes added : List UInt8) (st st' : State σ) : Prop where
  stream : stream st' = stream st ++ added
  sublist : added.Sublist bytes
  isPrefix : ¬ Loses gives st → added <+: bytes
  whole : ¬ Loses gives st → st'.s.sError = 0 → added = bytes
  sticky : st.s.sError ≠ 0 → st'.s.sError ≠ 0 ∧ added = []
  canExtend : st'.s.canExtend = st.s.canExtend
  size_le : st.s.sSize ≤ st'.s.sSize
  len_le : st'.s.sLen ≤ st.s.sLen + bytes.length
  grows : Grows bytes.length st st'
  extended : st'.w.next + extensions st.s.sSize ≤ st.w.next + extensions st'.s.sSize

theorem Accepts.trans {bytes' added' : List UInt8} {st'' : State σ}
    (h : Accepts gives bytes added st st') (h' : Accepts gives bytes' added' st' st'') :
    Accepts gives (bytes ++ bytes') (added ++ added') st st'' := by
  have hloses : Loses gives st' ↔ Loses gives st := by rw [Loses, Loses, h.canExtend]
  refine ⟨?_, h.sublist.append h'.sublist, fun hkeeps => ?_, fun hkeeps hzero => ?_,
    fun hne => ?_, h'.canExtend.trans h.canExtend, Int.le_trans h.size_le h'.size_le, ?_, ?_, ?_⟩
  · rw [h'.stream, h.stream, List.append_assoc]
  · by_cases hzero : st'.s.sError = 0
    · rw [h.whole hkeeps hzero]
      exact (List.prefix_append_right_inj bytes).mpr (h'.isPrefix (mt hloses.mp hkeeps))
    · rw [(h'.sticky hzero).2, List.append_nil]
      exact (h.isPrefix hkeeps).trans (List.prefix_append bytes bytes')
  · have hzero' : st'.s.sError = 0 := by
      by_contra hne
      exact (h'.sticky hne).1 hzero
    rw [h.whole hkeeps hzero', h'.whole (mt hloses.mp hkeeps) hzero]
  · obtain ⟨hne', rfl⟩ := h.sticky hne
    obtain ⟨hne'', rfl⟩ := h'.sticky hne'
    exact ⟨hne'', rfl⟩
  · have hlen := h.len_le
    have hlen' := h'.len_le
    rw [List.length_append]
    omega
  · rw [List.length_append]
    push_cast
    exact h.grows.trans h'.grows h.len_le (by omega)
  · have hext := h.extended
    have hext' := h'.extended
    omega

theorem Puts.accepts {rest : List UInt8} (h : Puts gives added rest st st')
    (hok : st.s.sError = 0) : Accepts gives (added ++ rest) added st st' := by
  have hlen := h.appends.len_le
  have hlength : (added ++ rest).length = added.length + rest.length := List.length_append
  refine ⟨h.appends.stream, List.sublist_append_left added rest,
    fun _ => List.prefix_append added rest, fun _ hzero => ?_, fun hne => absurd hok hne,
    h.appends.canExtend, h.appends.size_le, by omega, ?_, h.appends.extended⟩
  · rw [h.error.mp hzero, List.append_nil]
  · have hgrows := h.grows
    rw [Grows, roomFor] at hgrows ⊢
    omega

theorem Prints.accepts {rest : List UInt8} (h : Prints gives added rest st st')
    (hok : st.s.sError = 0) : Accepts gives (added ++ rest) added st st' := by
  have hlen := h.appends.len_le
  have hlength : (added ++ rest).length = added.length + rest.length := List.length_append
  refine ⟨h.appends.stream, List.sublist_append_left added rest,
    fun _ => List.prefix_append added rest, fun hkeeps hzero => ?_, fun hne => absurd hok hne,
    h.appends.canExtend, h.appends.size_le, by omega, ?_, h.appends.extended⟩
  · have hrest : rest = [] := by
      cases hext : st.s.canExtend with
      | false =>
        have hpos := (h.fixed hext).mp hzero
        by_contra hne
        rw [h.full hne] at hpos
        exact Int.lt_irrefl 0 hpos
      | true =>
        rcases h.extended hext hzero with hrest | hrefuse
        · exact hrest
        · exact absurd ⟨hext, hrefuse⟩ hkeeps
    rw [hrest, List.append_nil]
  · have hgrows := h.grows
    rw [Grows, roomFor] at hgrows ⊢
    omega

/-- An operation after an error appends nothing. -/
theorem Accepts.of_error (bytes : List UInt8) (hne : st.s.sError ≠ 0) :
    Accepts gives bytes [] st st :=
  ⟨(List.append_nil _).symm, List.nil_sublist bytes, fun _ => List.nil_prefix,
    fun _ hzero => absurd hzero hne, fun hne => ⟨hne, rfl⟩, rfl, Int.le_refl _, by omega,
    .of_eq rfl, Nat.le_refl _⟩

/-- An operation that leaves the text as it is. -/
theorem Accepts.of_stream (hstream : StringBuffers.stream st' = StringBuffers.stream st)
    (hsticky : st.s.sError ≠ 0 → st'.s.sError ≠ 0) (hext : st'.s.canExtend = st.s.canExtend)
    (hsize : st'.s.sSize = st.s.sSize) (hlen : st'.s.sLen ≤ st.s.sLen)
    (hnext : st'.w.next ≤ st.w.next) : Accepts gives [] [] st st' := by
  refine ⟨?_, List.nil_sublist _, fun _ => List.nil_prefix, fun _ _ => rfl,
    fun hne => ⟨hsticky hne, rfl⟩, hext, Int.le_of_eq hsize.symm, by simpa using hlen,
    .of_eq hsize, ?_⟩
  · rw [hstream, List.append_nil]
  · rw [hsize]
    omega

theorem sbufBcat_accepts (hinv : Inv base st) (buf : List UInt8) :
    Ends (fun _ => True) (fun r => ∃ added, Accepts gives buf added st r.2) (sbufBcat gives buf st) := by
  rw [sbufBcat]
  split
  · rename_i hne
    exact ⟨[], .of_error buf hne⟩
  · rename_i hok
    rw [not_not] at hok
    refine (putBytes_spec gives buf hinv hok).mono (fun _ _ => trivial) ?_
    rintro r ⟨-, -, added, rest, rfl, hputs⟩
    exact ⟨added, hputs.accepts hok⟩

theorem sbufVprintf_accepts (hinv : Inv base st) {fmt : Formatted} (hfmt : fmt.result ≠ -1) :
    Ends (fun _ => True) (fun r => ∃ added, Accepts gives fmt.bytes added st r.2)
      (sbufVprintf gives fmt st) := by
  by_cases hok : st.s.sError = 0
  · obtain ⟨text, rfl, hint⟩ : ∃ text, fmt = .text text ∧ text.length ≤ intMax := by
      cases fmt with
      | failed written => exact absurd rfl hfmt
      | text text =>
        refine ⟨text, rfl, ?_⟩
        by_contra hlong
        exact hfmt (if_neg hlong)
    refine (sbufVprintf_spec hinv hok hint).mono (fun _ _ => trivial) ?_
    rintro r ⟨-, -, added, rest, hsplit, hprints⟩
    rw [Formatted.bytes, hsplit]
    exact ⟨added, hprints.accepts hok⟩
  · rw [sbufVprintf, if_pos hok]
    exact ⟨[], .of_error _ hok⟩

theorem sbufPutc_accepts (hinv : Inv base st) (c : UInt8) :
    Ends (fun _ => True) (fun r => ∃ added, Accepts gives [c] added st r.2) (sbufPutc gives c st) := by
  rw [sbufPutc]
  refine Ends.bind (P := fun st' => ∃ added, Accepts gives [c] added st st') ?_ fun _ h => h
  by_cases hok : st.s.sError = 0
  · refine (sbufPutByte_spec hinv hok c).mono (fun _ _ => trivial) ?_
    rintro st' ⟨-, hputs | hputs⟩
    · exact ⟨[c], hputs.accepts hok⟩
    · exact ⟨[], hputs.accepts hok⟩
  · rw [sbufPutByte, if_pos hok]
    exact ⟨[], .of_error _ hok⟩

/-- The step lemma. -/
theorem perform_accepts {op : Op σ} (hinv : Inv base st) (happ : Appending op) :
    Ends (fun _ => True) (fun r => ∃ added, Accepts gives (op.bytes 0) added st r.2)
      (perform gives op st) := by
  cases op with
  | bcat buf => exact sbufBcat_accepts hinv buf
  | cat str => exact sbufBcat_accepts hinv str.bytes
  | printf fmt => exact sbufVprintf_accepts hinv happ
  | putc c => exact sbufPutc_accepts hinv c
  | setDrain func =>
    exact ⟨[], .of_stream rfl (fun hne => hne) rfl rfl (Int.le_refl _) (Nat.le_refl _)⟩
  | finish =>
    obtain ⟨st', hfinish, -, hfin⟩ := sbufFinish_spec hinv
    rw [perform, hfinish]
    exact ⟨[], .of_stream hfin.stream hfin.sticky hfin.canExtend hfin.size hfin.len_le hfin.extended⟩
  | startSection =>
    rw [perform, sbufStartSection]
    split
    · exact ⟨[], .of_stream rfl (fun hne => hne) rfl rfl (Int.le_refl _) (Nat.le_refl _)⟩
    · exact ⟨[], .of_stream rfl (fun hne => hne) rfl rfl (Int.le_refl _) (Nat.le_refl _)⟩
  | clear => exact absurd happ id
  | setpos pos => exact absurd happ id
  | bcpy buf => exact absurd happ id
  | cpy str => exact absurd happ id
  | trim => exact absurd happ id
  | endSection oldLen pad c => exact absurd happ id

/-- The run lemma; a drain that is set needs room for a byte. -/
theorem performAll_accepts {ops : List (Op σ)} {rs : List ℤ} (hinv : Inv base st)
    (happ : ∀ op ∈ ops, Appending op) (hroom : 2 ≤ st.s.sSize)
    (hrun : performAll gives ops st = .ok (rs, st')) :
    Inv base st' ∧ ∃ added, Accepts gives (requested ops) added st st' := by
  induction ops generalizing st rs with
  | nil =>
    cases hrun
    exact ⟨hinv, [], .of_stream rfl (fun hne => hne) rfl rfl (Int.le_refl _) (Nat.le_refl _)⟩
  | cons op ops ih =>
    rw [List.forall_mem_cons] at happ
    rw [performAll] at hrun
    obtain ⟨⟨r, st₁⟩, hperform, hrun⟩ := bind_eq_ok.mp hrun
    obtain ⟨⟨rs', st₂⟩, hrest, hrun⟩ := bind_eq_ok.mp hrun
    cases hrun
    have hcareful : Careful st op := by
      cases op with
      | printf fmt => exact fun _ hfailed => absurd hfailed happ.1
      | setDrain func => exact fun _ => hroom
      | _ => trivial
    have hinv₁ : Inv base st₁ := (perform_inv hinv hcareful).of_ok hperform
    obtain ⟨added, hacc⟩ := (perform_accepts hinv happ.1).of_ok hperform
    obtain ⟨hinv₂, added', hacc'⟩ := ih hinv₁ happ.2 (Int.le_trans hroom hacc.size_le) hrest
    exact ⟨hinv₂, added ++ added', hacc.trans hacc'⟩

/-- A drain that takes all it is given. -/
def takeAll : Drain Unit where
  call w data := (data.length, w)
  amount w data hne := by
    have hlength : data.length ≠ 0 := fun hzero => hne (List.eq_nil_of_length_eq_zero hzero)
    constructor
    · dsimp only
      omega
    · exact Int.le_refl _

/-- The state after a run without a fault. -/
def stateAfter (ops : List (Op Unit)) (st : State Unit) : State Unit :=
  match performAll plenty ops st with
  | .ok (_, st) => st
  | .error _ => st

/-- Five bytes through the storage of three. -/
def fiveBytes : List (Op Unit) := [.setDrain (some takeAll), .bcat [1, 2, 3, 4, 5]]

theorem fiveBytes_appending : ∀ op ∈ fiveBytes, Appending op := by
  simp [fiveBytes, Appending]

theorem calloc_next {w w' : World σ} {size : ℤ} {p : Option ℕ}
    (hcalloc : calloc gives size w = (p, w')) (hp : p ≠ none) : w'.next = w.next + 1 := by
  rw [calloc] at hcalloc
  dsimp only at hcalloc
  split at hcalloc
  · cases hcalloc
    rfl
  · cases hcalloc
    exact absurd rfl hp

theorem sbufNewAuto_eq {w w' : World σ} {s : Sbuf σ} (hnew : sbufNewAuto gives w = .ok (some s, w')) :
    s.sSize = 16 ∧ s.sLen = 0 ∧ w'.next = w.next + 2 := by
  have hfirst : firstSize 0 true = .ok 16 := rfl
  rw [sbufNewAuto, sbufNew, if_neg (by decide)] at hnew
  rcases hself : calloc gives 64 w with ⟨_ | p, w₁⟩
  · rw [hself] at hnew
    cases hnew
  rw [hself] at hnew
  obtain ⟨⟨s', w₂⟩, hbuf, hnew⟩ := bind_eq_ok.mp hnew
  rw [sbufNewbuf, hfirst, ok_bind] at hbuf
  rcases hblock : calloc gives 16 w₁ with ⟨_ | q, w₃⟩
  · rw [hblock] at hbuf
    cases hbuf
    obtain ⟨w₄, -, hnew⟩ := bind_eq_ok.mp hnew
    cases hnew
  rw [hblock] at hbuf
  cases hbuf
  cases hnew
  have hnext := calloc_next hself (Option.some_ne_none p)
  have hnext' := calloc_next hblock (Option.some_ne_none q)
  exact ⟨rfl, rfl, by omega⟩

theorem extensions_sixteen : extensions 16 = 1 := by decide

theorem extensions_le_pages {size : ℤ} (n : ℕ) (hsize : size ≤ n + 4096) :
    extensions size ≤ 9 + n / 4096 := by
  rw [extensions, maxExtendSize]
  split
  · have hbits : (size.toNat / 16).size ≤ 8 := Nat.size_le.mpr (by omega)
    omega
  · omega

theorem le_of_le_roomFor {size : ℤ} (n : ℕ) (hsize : size ≤ max 16 (roomFor n)) :
    size ≤ max 16 (2 * (n + 1 : ℤ)) ∧ size ≤ (n + 4096 : ℤ) := by
  rw [roomFor] at hsize
  constructor
  · omega
  · omega

/-- A new buffer that takes `n` bytes is never more than twice as large as the text needs,
nor larger by more than a page, and it asks for a block a page and ten more. -/
theorem growth_of_run {ops : List (Op σ)} {rs : List ℤ} {w w' : World σ} {s : Sbuf σ}
    (happ : ∀ op ∈ ops, Appending op) (hw : Named w)
    (hnew : sbufNewAuto gives w = .ok (some s, w'))
    (hrun : performAll gives ops ⟨s, w'⟩ = .ok (rs, st')) :
    st'.s.sSize ≤ max 16 (2 * ((requested ops).length + 1 : ℤ)) ∧
      st'.s.sSize ≤ ((requested ops).length + 4096 : ℤ) ∧
      st'.w.next ≤ w.next + 10 + (requested ops).length / 4096 := by
  obtain ⟨hsize, hlen, hnext⟩ := sbufNewAuto_eq hnew
  have hroomy : Roomy none 0 true := ⟨by decide, Or.inr ⟨rfl, Int.le_refl 0⟩⟩
  have hinv : Inv w.live ⟨s, w'⟩ := (sbufNew_spec hroomy hw).of_ok hnew
  obtain ⟨-, added, hacc⟩ := performAll_accepts hinv happ (by dsimp only; omega) hrun
  have hgrows := hacc.grows
  have hext := hacc.extended
  rw [Grows, hsize, hlen, Int.zero_add] at hgrows
  rw [hsize, hnext, extensions_sixteen] at hext
  obtain ⟨hdouble, hpage⟩ := le_of_le_roomFor _ hgrows
  have hmost := extensions_le_pages _ hpage
  exact ⟨hdouble, hpage, by omega⟩

/-- Seventeen bytes, for which the storage is extended once. -/
def catSeventeen : List (Op Unit) := [.bcat seventeen]

theorem growth_of_run_seventeen :
    (stateAfter catSeventeen newBuffer).s.sSize ≤
        max 16 (2 * ((requested catSeventeen).length + 1 : ℤ)) ∧
      (stateAfter catSeventeen newBuffer).s.sSize ≤ ((requested catSeventeen).length + 4096 : ℤ) ∧
      (stateAfter catSeventeen newBuffer).w.next ≤
        emptyHeap.next + 10 + (requested catSeventeen).length / 4096 := by
  have hnew : sbufNewAuto plenty emptyHeap = .ok (some newBuffer.s, newBuffer.w) := rfl
  have hnamed : Named emptyHeap := ⟨List.nodup_nil, fun _ hx => absurd hx List.not_mem_nil⟩
  have hrun : performAll plenty catSeventeen newBuffer =
      .ok ([0], stateAfter catSeventeen newBuffer) := rfl
  exact growth_of_run (by simp [catSeventeen, Appending]) hnamed hnew hrun

end OpenXPC.StringBuffers
