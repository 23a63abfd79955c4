import Mathlib.Data.Nat.ModEq
import OpenXPC.DigitWindows
import OpenXPC.Hashing

/-! # The hash of bytes

`xpc_data_hash` evaluates the bytes as the digits of a number to base 33, the first
byte lowest, with 5381 in front of them. Bytes go up to 255, so that some digits carry;
short texts over 33 successive bytes do not, nor does their number overflow a word. -/
namespace OpenXPC
open DigitWindows

theorem toNat_hashStep (hash : UInt64) (byte : UInt8) :
    ((hash <<< 5) + hash + byte.toUInt64).toNat = (33 * hash.toNat + byte.toNat) % 2 ^ 64 := by
  have hshift : (hash <<< 5).toNat = hash.toNat * 2 ^ 5 % 2 ^ 64 := by
    rw [UInt64.toNat_shiftLeft, Nat.shiftLeft_eq]
    rfl
  rw [UInt64.toNat_add, UInt64.toNat_add, hshift, UInt8.toNat_toUInt64]
  omega

theorem toNat_xpcDataHashLoop {data : List UInt8} {length : ℕ} (hle : length ≤ data.length)
    (hash : UInt64) : (xpcDataHashLoop data length hash).toNat =
      (hash.toNat * 33 ^ length + Nat.ofDigits 33 ((data.take length).map UInt8.toNat)) % 2 ^ 64 := by
  induction length generalizing hash with
  | zero => simp [xpcDataHashLoop, Nat.mod_eq_of_lt hash.toNat_lt]
  | succ n ih =>
    have hget : data.getD n 0 = data[n] := by
      rw [List.getD_eq_getElem?_getD, List.getElem?_eq_getElem hle, Option.getD_some]
    have htake : (data.take (n + 1)).map UInt8.toNat =
        (data.take n).map UInt8.toNat ++ [data[n].toNat] := by
      rw [List.take_succ_eq_append_getElem hle, List.map_append, List.map_singleton]
    have hlen : ((data.take n).map UInt8.toNat).length = n := by simp; omega
    have hwrap := (Nat.mod_modEq (33 * hash.toNat + data[n].toNat) (2 ^ 64)).mul_right (33 ^ n)
    rw [xpcDataHashLoop, ih (Nat.le_of_succ_le hle), toNat_hashStep, hget, htake,
      Nat.ofDigits_append, hlen, Nat.ofDigits_singleton]
    refine (hwrap.add_right _).trans (congrArg (· % 2 ^ 64) ?_)
    ring

theorem toNat_xpcDataHash (data : List UInt8) : (xpcDataHash data data.length).toNat =
    led 5381 33 (data.map UInt8.toNat) % 2 ^ 64 := by
  rw [xpcDataHash, toNat_xpcDataHashLoop (Nat.le_refl _), List.take_length, led, List.length_map]
  rfl

/-! ## Texts that are told apart -/

def BytesInWindow (c w : ℕ) (bytes : List UInt8) : Prop :=
  ∀ byte ∈ bytes, c ≤ byte.toNat ∧ byte.toNat < c + w

theorem BytesInWindow.inWindow {c w : ℕ} {bytes : List UInt8} (hw : BytesInWindow c w bytes) :
    InWindow c w (bytes.map UInt8.toNat) := by
  intro a ha
  obtain ⟨byte, hbyte, rfl⟩ := List.mem_map.mp ha
  exact hw byte hbyte

theorem BytesInWindow.mono {c w v : ℕ} {bytes : List UInt8} (hw : BytesInWindow c w bytes)
    (hle : w ≤ v) : BytesInWindow c v bytes := fun byte hbyte =>
  ⟨(hw byte hbyte).1, Nat.lt_of_lt_of_le (hw byte hbyte).2 (Nat.add_le_add_left hle c)⟩

/-- 255 and a carry of 8 fit below 8 times the base. -/
theorem byte_add_le (bytes : List UInt8) : ∀ a ∈ bytes.map UInt8.toNat, a + 8 ≤ 8 * 33 := by
  intro a ha
  obtain ⟨byte, -, rfl⟩ := List.mem_map.mp ha
  have hlt := byte.toNat_lt
  omega

theorem toNat_xpcDataHash_of_short {data : List UInt8} (hlen : data.length ≤ 10) :
    (xpcDataHash data data.length).toNat = led 5381 33 (data.map UInt8.toNat) := by
  have hlt := led_lt (s := 5381) (b := 33) (d := 8) (by decide) (byte_add_le data)
  have hpow : 33 ^ data.length ≤ 33 ^ 10 := Nat.pow_le_pow_right (by decide) hlen
  rw [List.length_map] at hlt
  rw [toNat_xpcDataHash, Nat.mod_eq_of_lt]
  calc led 5381 33 (data.map UInt8.toNat) < (5381 + 8) * 33 ^ data.length := hlt
    _ ≤ (5381 + 8) * 33 ^ 10 := Nat.mul_le_mul_left _ hpow
    _ ≤ 2 ^ 64 := by decide

theorem xpcDataHash_injective {c : ℕ} {data data' : List UInt8} (hlen : data.length ≤ 10)
    (hlen' : data'.length ≤ 10) (hw : BytesInWindow c 33 data) (hw' : BytesInWindow c 33 data')
    (heq : xpcDataHash data data.length = xpcDataHash data' data'.length) : data = data' := by
  have hled : led 5381 33 (data.map UInt8.toNat) = led 5381 33 (data'.map UInt8.toNat) := by
    rw [← toNat_xpcDataHash_of_short hlen, ← toNat_xpcDataHash_of_short hlen', heq]
  have hmap := led_injective (by decide) (by decide) (by decide) (byte_add_le data)
    (byte_add_le data') hw.inWindow hw'.inWindow hled
  exact List.map_injective_iff.mpr (fun _ _ => UInt8.toNat_inj.mp) hmap

/-- The byte of a digit of a window that ends by 256. -/
theorem toNat_ofNat_of_window {a c w : ℕ} (ha : a < c + w) (hcw : c + w ≤ 256) :
    (UInt8.ofNat a).toNat = a :=
  UInt8.toNat_ofNat_of_lt' (Nat.lt_of_lt_of_le ha hcw)

/-- Two texts of two bytes share a hash as soon as the window is wider than the base. -/
theorem exists_collision {c w : ℕ} (hcw : c + w ≤ 256) (hwide : 33 < w) :
    ∃ data data', data ≠ data' ∧ data.length = 2 ∧ data'.length = 2 ∧ BytesInWindow c w data ∧
      BytesInWindow c w data' ∧
      xpcDataHash data data.length = xpcDataHash data' data'.length := by
  have htoNat : ∀ i < w, (UInt8.ofNat (c + i)).toNat = c + i :=
    fun i hi => toNat_ofNat_of_window (Nat.add_lt_add_left hi c) hcw
  have hwindow : ∀ i < w, ∀ j < w,
      BytesInWindow c w [UInt8.ofNat (c + i), UInt8.ofNat (c + j)] := by
    intro i hi j hj byte hbyte
    rcases List.mem_pair.mp hbyte with rfl | rfl
    · rw [htoNat i hi]
      omega
    · rw [htoNat j hj]
      omega
  refine ⟨[UInt8.ofNat (c + 33), UInt8.ofNat (c + 0)], [UInt8.ofNat (c + 0), UInt8.ofNat (c + 1)],
    fun heq => ?_, rfl, rfl, hwindow 33 hwide 0 (by omega), hwindow 0 (by omega) 1 (by omega), ?_⟩
  · have hbyte := congrArg UInt8.toNat (List.cons.inj heq).1
    rw [htoNat 33 hwide, htoNat 0 (by omega)] at hbyte
    omega
  · apply UInt64.toNat_inj.mp
    rw [toNat_xpcDataHash, toNat_xpcDataHash]
    have hzero : (UInt8.ofNat c).toNat = c := htoNat 0 (Nat.zero_lt_of_lt hwide)
    simp only [led, List.map_cons, List.map_nil, List.length_cons, List.length_nil, Nat.add_zero,
      hzero, htoNat 33 hwide, htoNat 1 (by omega), ofDigits_carry]

/-! ## Objects that are told apart -/

variable {h : Heap (List ObjId)} {x n : ℕ}

/-- A string or data object with these bytes. -/
inductive HasBytes : Leaf → List UInt8 → Prop
  | string (str : CString) : HasBytes (.string str) str.bytes
  | data (bytes : List UInt8) : HasBytes (.data bytes) bytes

theorem xpcHash_bytes {v : Leaf} {bytes : List UInt8} (words : ObjId → UInt64)
    (hv : HasBytes v bytes) (hx : TreeAt h x (.leaf v)) :
    xpcHash words h (n + 1) x = .ok (xpcDataHash bytes bytes.length) := by
  obtain ⟨-, o, ho, hu⟩ := treeFrom_leaf.mp hx
  have hsize := o.sized
  rw [hu] at hsize
  cases hv <;> simp_all [xpcHash, Heap.deref_of_get ho, Payload.SizeOk]

/-- Any two strings or data objects of at most ten bytes, all out of `w` successive values, are told
apart by their hashes exactly when `w` is at most 33. -/
theorem xpcHash_separates_iff {c w : ℕ} (hcw : c + w ≤ 256) :
    (∀ (h h' : Heap (List ObjId)) (words words' : ObjId → UInt64) (x y n m : ℕ) (v v' : Leaf)
        (bytes bytes' : List UInt8), TreeAt h x (.leaf v) → TreeAt h' y (.leaf v') →
        HasBytes v bytes → HasBytes v' bytes' → BytesInWindow c w bytes →
        BytesInWindow c w bytes' → bytes.length ≤ 10 → bytes'.length ≤ 10 →
        xpcHash words h (n + 1) x = xpcHash words' h' (m + 1) y → bytes = bytes') ↔ w ≤ 33 := by
  constructor
  · intro hall
    by_contra hwide
    obtain ⟨bytes, bytes', hne, hlen, hlen', hb, hb', heq⟩ :=
      exists_collision hcw (Nat.lt_of_not_le hwide)
    have htree : ∀ bytes, TreeAt (leafCreate ⟨[]⟩ (.data bytes)).1 0 (.leaf (.data bytes)) :=
      fun bytes => treeFrom_leafCreate ⟨[]⟩ (.data bytes)
    apply hne
    refine hall _ _ (fun _ => 0) (fun _ => 0) 0 0 0 0 _ _ _ _ (htree bytes) (htree bytes')
      (.data bytes) (.data bytes') hb hb' (by omega) (by omega) ?_
    rw [xpcHash_bytes _ (.data bytes) (htree bytes), xpcHash_bytes _ (.data bytes') (htree bytes'),
      heq]
  · intro hw h h' words words' x y n m v v' bytes bytes' hx hy hv hv' hb hb' hlen hlen' heq
    rw [xpcHash_bytes words hv hx, xpcHash_bytes words' hv' hy] at heq
    exact xpcDataHash_injective hlen hlen' (hb.mono hw) (hb'.mono hw) (Except.ok.inj heq)

/-- Two letters in either order, among the 33 values from 65 on. -/
theorem xpcHash_separates_letters :
    xpcHash (fun _ => 0) (leafCreate ⟨[]⟩ (.data [65, 66])).1 1 0 ≠
      xpcHash (fun _ => 0) (leafCreate ⟨[]⟩ (.data [66, 65])).1 1 0 := by
  intro heq
  have hwindow : ∀ bytes : List UInt8, bytes = [65, 66] ∨ bytes = [66, 65] →
      BytesInWindow 65 33 bytes := by
    intro bytes hbytes byte hbyte
    rcases hbytes with rfl | rfl
    all_goals
      rcases List.mem_pair.mp hbyte with rfl | rfl
      all_goals decide
  have hsame := (xpcHash_separates_iff (c := 65) (w := 33) (by decide)).mpr (by decide) _ _ _ _ 0 0 0 0
    _ _ _ _ (treeFrom_leafCreate ⟨[]⟩ _) (treeFrom_leafCreate ⟨[]⟩ _) (.data [65, 66])
    (.data [66, 65]) (hwindow _ (.inl rfl)) (hwindow _ (.inr rfl)) (by decide) (by decide) heq
  exact absurd hsame (by decide)

end OpenXPC
