import Mathlib.Data.List.Forall2
import Mathlib.Tactic.Common

/-! # Typed message values

The values a D-Bus message is made of, over a type `S` of strings. A container
carries what it was declared as when it was opened, and whatever was written into
it; a value has a type when the two agree all the way down. -/
namespace OpenXPC.Wire

inductive Basic
  | byte | boolean | int16 | uint16 | int32 | uint32 | int64 | uint64 | double
  | string | objectPath | signature | unixFd
  deriving DecidableEq

inductive Ty
  | basic (b : Basic)
  | variant
  | array (elem : Ty)
  | struct (fields : List Ty)
  | dictEntry (key : Basic) (value : Ty)

/-- A value of a basic type; a descriptor stands for the file it refers to. -/
inductive BasicVal (S : Type)
  | byte (b : UInt8)
  | boolean (b : Bool)
  | int16 (i : Int16)
  | uint16 (u : UInt16)
  | int32 (i : Int32)
  | uint32 (u : UInt32)
  | int64 (i : Int64)
  | uint64 (u : UInt64)
  | double (bits : UInt64)
  | string (s : S)
  | objectPath (s : S)
  | signature (s : S)
  | unixFd (file : ℕ)

/-- What a container is opened as. -/
inductive Container
  | array (elem : Ty)
  | variant (sig : Ty)
  | struct
  | dictEntry

inductive Val (S : Type)
  | basic (b : BasicVal S)
  | container (c : Container) (content : List (Val S))

variable {S : Type}

def BasicVal.ty : BasicVal S → Basic
  | .byte _ => .byte
  | .boolean _ => .boolean
  | .int16 _ => .int16
  | .uint16 _ => .uint16
  | .int32 _ => .int32
  | .uint32 _ => .uint32
  | .int64 _ => .int64
  | .uint64 _ => .uint64
  | .double _ => .double
  | .string _ => .string
  | .objectPath _ => .objectPath
  | .signature _ => .signature
  | .unixFd _ => .unixFd

namespace Val

mutual

def depth : Val S → ℕ
  | .basic _ => 0
  | .container _ content => depthAll content + 1

def depthAll : List (Val S) → ℕ
  | [] => 0
  | v :: vs => max (depth v) (depthAll vs)

end

theorem depth_lt_of_mem {c : Container} {v : Val S} {content : List (Val S)} (hv : v ∈ content) :
    v.depth < (container c content).depth := by
  rw [depth, Nat.lt_succ_iff]
  induction content with
  | nil => cases hv
  | cons w ws ih =>
    rw [depthAll]
    rcases List.mem_cons.mp hv with rfl | hv
    · exact Nat.le_max_left _ _
    · exact Nat.le_trans (ih hv) (Nat.le_max_right _ _)

theorem depth_lt_of_container_le {c : Container} {content : List (Val S)} {n : ℕ}
    (hn : (container c content).depth ≤ n) : ∀ v ∈ content, v.depth < n :=
  fun _ hv => Nat.lt_of_lt_of_le (depth_lt_of_mem hv) hn

mutual

/-- The value is complete and of the type. -/
def HasTy : Val S → Ty → Prop
  | .basic b, t => t = .basic b.ty
  | .container (.array elem) content, t => t = .array elem ∧ AllHaveTy elem content
  | .container (.variant sig) content, t => t = .variant ∧ OneHasTy sig content
  | .container .struct content, t => ∃ fields, t = .struct fields ∧ content ≠ [] ∧
      FieldsHaveTy content fields
  | .container .dictEntry content, t => ∃ key value, t = .dictEntry key value ∧
      FieldsHaveTy content [.basic key, value]

def AllHaveTy (t : Ty) : List (Val S) → Prop
  | [] => True
  | v :: vs => HasTy v t ∧ AllHaveTy t vs

def OneHasTy (t : Ty) : List (Val S) → Prop
  | [] => False
  | v :: vs => HasTy v t ∧ vs = []

def FieldsHaveTy : List (Val S) → List Ty → Prop
  | [], [] => True
  | v :: vs, t :: ts => HasTy v t ∧ FieldsHaveTy vs ts
  | _, _ => False

end

theorem allHaveTy_iff {t : Ty} {vs : List (Val S)} : AllHaveTy t vs ↔ ∀ v ∈ vs, v.HasTy t := by
  induction vs with
  | nil => simp [AllHaveTy]
  | cons v vs ih => simp [AllHaveTy, ih]

@[simp] theorem hasTy_basic {b : BasicVal S} {t : Ty} : (basic b).HasTy t ↔ t = .basic b.ty := by
  rw [HasTy]

@[simp] theorem hasTy_array {elem t : Ty} {vs : List (Val S)} :
    (container (.array elem) vs).HasTy t ↔ t = .array elem ∧ ∀ v ∈ vs, v.HasTy elem := by
  rw [HasTy, allHaveTy_iff]

@[simp] theorem hasTy_variant {sig t : Ty} {vs : List (Val S)} :
    (container (.variant sig) vs).HasTy t ↔ t = .variant ∧ ∃ v, vs = [v] ∧ v.HasTy sig := by
  rw [HasTy]
  cases vs with
  | nil => simp [OneHasTy]
  | cons v vs =>
    rw [OneHasTy]
    constructor
    · intro h
      exact ⟨h.1, v, by rw [h.2.2], h.2.1⟩
    · intro h
      obtain ⟨ht, w, hw, hty⟩ := h
      cases hw
      exact ⟨ht, hty, rfl⟩

theorem hasTy_dictEntry {k : BasicVal S} {v : Val S} {value : Ty} (hv : v.HasTy value) :
    (container .dictEntry [basic k, v]).HasTy (.dictEntry k.ty value) := by
  rw [HasTy]
  exact ⟨k.ty, value, rfl, hasTy_basic.mpr rfl, hv, trivial⟩

end Val
end OpenXPC.Wire
