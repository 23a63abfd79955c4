import Mathlib.Data.Int.Notation
import Mathlib.Data.List.Basic
import Mathlib.Tactic.Common
import OpenXPC.Objects
import OpenXPC.Overwriting

/-! # String buffers

An sbuf is a block of storage with the length of the text in it. The heap is the list of
the blocks that are allocated; a drain is a function that takes a part of the text away. -/
namespace OpenXPC.StringBuffers
open Overwriting

/-- Where an execution leaves the modelled behaviour. -/
inductive Overrun
  | outside       -- an access outside of the storage
  | overflow      -- a size that no int holds
  | badFree       -- what is freed is not an allocated block
  | outOfFuel
  deriving DecidableEq

def intMax : ℤ := 2147483647

def enomem : ℤ := 12

/-- A part of the memory; `block` is its name in the heap, and `none` for storage that
the caller provides. -/
structure Storage where
  block : Option ℕ
  bytes : List UInt8
  deriving DecidableEq

namespace Storage

def load (b : Storage) (start n : ℤ) : Except Overrun (List UInt8) :=
  if 0 ≤ start ∧ 0 ≤ n ∧ start + n ≤ b.bytes.length then
    .ok ((b.bytes.drop start.toNat).take n.toNat)
  else .error .outside

def store (b : Storage) (start : ℤ) (data : List UInt8) : Except Overrun Storage :=
  if 0 ≤ start ∧ start + data.length ≤ b.bytes.length then
    .ok ⟨b.block, overwrite b.bytes start.toNat data⟩
  else .error .outside

end Storage

variable {σ : Type}

/-- A drain function with its argument. It returns how much of the data it took, or a
negative error; the bounds are those that `sbuf_drain` asserts. -/
structure Drain (σ : Type) where
  call : σ → List UInt8 → ℤ × σ
  amount : ∀ w data, data ≠ [] → (call w data).1 ≠ 0 ∧ (call w data).1 ≤ data.length

/-- The heap, what the drains have taken so far, and what the allocator and the drains
depend on. Names of blocks are not used again. -/
structure World (σ : Type) where
  next : ℕ
  live : List ℕ
  taken : List UInt8
  rest : σ

/-- `SBMALLOC`: `gives` says whether there is memory for a block of a size. -/
def calloc (gives : σ → ℤ → Bool × σ) (size : ℤ) (w : World σ) : Option ℕ × World σ :=
  let (given, rest) := gives w.rest size
  if given then (some w.next, { w with next := w.next + 1, live := w.next :: w.live, rest := rest })
  else (none, { w with rest := rest })

def free (block : Option ℕ) (w : World σ) : Except Overrun (World σ) :=
  match block with
  | some x => if x ∈ w.live then .ok { w with live := w.live.erase x } else .error .badFree
  | none => .error .badFree

/-- The flags of `s_flags`. -/
structure Flags where
  autoextend : Bool
  dynamic : Bool
  finished : Bool
  dynstruct : Bool
  insection : Bool
  deriving DecidableEq

/-- `self` is the block that the structure itself is in. -/
structure Sbuf (σ : Type) where
  self : Option ℕ
  sBuf : Storage
  sDrainFunc : Option (Drain σ)
  sError : ℤ
  sSize : ℤ
  sLen : ℤ
  sFlags : Flags
  sSectLen : ℤ

structure State (σ : Type) where
  s : Sbuf σ
  w : World σ

namespace Sbuf

def hasRoom (s : Sbuf σ) : Bool := s.sLen < s.sSize - 1

def freeSpace (s : Sbuf σ) : ℤ := s.sSize - (s.sLen + 1)

def canExtend (s : Sbuf σ) : Bool := s.sFlags.autoextend

def isSection (s : Sbuf σ) : Bool := s.sFlags.insection

/-- What the buffer holds. -/
def text (s : Sbuf σ) : List UInt8 := s.sBuf.bytes.take s.sLen.toNat

end Sbuf

/-! ## Sizes -/

def minExtendSize : ℤ := 16

def maxExtendSize : ℤ := 4096

/-- The loop of `sbuf_extendsize`. -/
def doubled (size : ℤ) : ℕ → ℤ → ℤ
  | 0, newsize => newsize
  | fuel + 1, newsize => if newsize < size then doubled size fuel (newsize * 2) else newsize

/-- `roundup2` adds before it clears the low bits, and the sum may be too large. -/
def sbufExtendsize (size : ℤ) : Except Overrun ℤ :=
  if size < maxExtendSize then .ok (doubled size size.toNat minExtendSize)
  else if intMax < size + (maxExtendSize - 1) then .error .overflow
  else .ok ((size + (maxExtendSize - 1)) / maxExtendSize * maxExtendSize)

section Operations

/-- Storage goes back to the heap if it came from there. -/
def freeBuf (s : Sbuf σ) (w : World σ) : Except Overrun (World σ) :=
  if s.sFlags.dynamic then free s.sBuf.block w else .ok w

variable (gives : σ → ℤ → Bool × σ)

def sbufExtend (addlen : ℤ) (st : State σ) : Except Overrun (ℤ × State σ) :=
  if st.s.canExtend = false then .ok (-1, st)
  else do
    let newsize ← sbufExtendsize (st.s.sSize + addlen)
    let (newbuf, w) := calloc gives newsize st.w
    match newbuf with
    | none => .ok (-1, ⟨st.s, w⟩)
    | some newbuf => do
      let old ← st.s.sBuf.load 0 st.s.sSize
      let buf ← Storage.store ⟨some newbuf, List.replicate newsize.toNat 0⟩ 0 old
      let w ← freeBuf st.s w
      .ok (0, ⟨{ st.s with
        sBuf := buf, sSize := newsize, sFlags := { st.s.sFlags with dynamic := true } }, w⟩)

/-- The fields after the `memset`, with the storage and the size. -/
def initial (self : Option ℕ) (buf : Storage) (length : ℤ) (autoextend dynamic : Bool) : Sbuf σ where
  self := self
  sBuf := buf
  sDrainFunc := none
  sError := 0
  sSize := length
  sLen := 0
  sFlags := ⟨autoextend, dynamic, false, self.isSome, false⟩
  sSectLen := 0

/-- The size of storage that the caller does not provide. -/
def firstSize (length : ℤ) (autoextend : Bool) : Except Overrun ℤ :=
  if autoextend then sbufExtendsize length else .ok length

def sbufNewbuf (self : Option ℕ) (buf : Option (List UInt8)) (length : ℤ) (autoextend : Bool)
    (w : World σ) : Except Overrun (Option (Sbuf σ) × World σ) :=
  match buf with
  | some buf => .ok (some (initial self ⟨none, buf⟩ length autoextend false), w)
  | none => do
    let size ← firstSize length autoextend
    let (p, w) := calloc gives size w
    match p with
    | none => .ok (none, w)
    | some p =>
      .ok (some (initial self ⟨some p, List.replicate size.toNat 0⟩ size autoextend true), w)

/-- `own` says that the caller provides the structure. -/
def sbufNew (own : Bool) (buf : Option (List UInt8)) (length : ℤ) (autoextend : Bool)
    (w : World σ) : Except Overrun (Option (Sbuf σ) × World σ) :=
  if own then sbufNewbuf gives none buf length autoextend w
  else
    let (p, w) := calloc gives 64 w
    match p with
    | none => .ok (none, w)
    | some p => do
      let (s, w) ← sbufNewbuf gives (some p) buf length autoextend w
      match s with
      | some s => .ok (some s, w)
      | none => do
        let w ← free (some p) w
        .ok (none, w)

def sbufNewAuto (w : World σ) : Except Overrun (Option (Sbuf σ) × World σ) :=
  sbufNew gives false none 0 true w

def sbufClear (st : State σ) : State σ :=
  ⟨{ st.s with sFlags := { st.s.sFlags with finished := false }, sError := 0, sLen := 0, sSectLen := 0 },
    st.w⟩

def sbufSetpos (pos : ℤ) (st : State σ) : ℤ × State σ :=
  if pos < 0 ∨ st.s.sLen < pos then (-1, st) else (0, ⟨{ st.s with sLen := pos }, st.w⟩)

def sbufSetDrain (func : Option (Drain σ)) (st : State σ) : State σ :=
  ⟨{ st.s with sDrainFunc := func }, st.w⟩

def sbufDrain (func : Drain σ) (st : State σ) : Except Overrun (ℤ × State σ) := do
  let data ← st.s.sBuf.load 0 st.s.sLen
  let (len, rest) := func.call st.w.rest data
  let w : World σ := { st.w with rest := rest, taken := st.w.taken ++ data.take len.toNat }
  if len < 0 then .ok (-len, ⟨{ st.s with sError := -len }, w⟩)
  else do
    let sLen := st.s.sLen - len
    if sLen = 0 then .ok (0, ⟨{ st.s with sLen := sLen }, w⟩)
    else do
      let left ← st.s.sBuf.load len sLen
      let buf ← st.s.sBuf.store 0 left
      .ok (0, ⟨{ st.s with sLen := sLen, sBuf := buf }, w⟩)

/-- Without room, what is drained or else added to the storage. -/
def makeRoom (st : State σ) : Except Overrun (State σ) :=
  if st.s.freeSpace ≤ 0 then
    match st.s.sDrainFunc with
    | some func => do
      let (_, st) ← sbufDrain func st
      .ok st
    | none => do
      let (r, st) ← sbufExtend gives 1 st
      .ok (if r < 0 then ⟨{ st.s with sError := enomem }, st.w⟩ else st)
  else .ok st

def sbufPutByte (c : UInt8) (st : State σ) : Except Overrun (State σ) :=
  if st.s.sError ≠ 0 then .ok st
  else do
    let st ← makeRoom gives st
    if st.s.sError ≠ 0 then .ok st
    else do
      let buf ← st.s.sBuf.store st.s.sLen [c]
      .ok ⟨{ st.s with
        sBuf := buf, sLen := st.s.sLen + 1,
        sSectLen := if st.s.isSection then st.s.sSectLen + 1 else st.s.sSectLen }, st.w⟩

/-- The loop of `sbuf_bcat`, and that of `sbuf_cat`. -/
def putBytes : List UInt8 → State σ → Except Overrun (ℤ × State σ)
  | [], st => .ok (0, st)
  | c :: str, st => do
    let st ← sbufPutByte gives c st
    if st.s.sError ≠ 0 then .ok (-1, st) else putBytes str st

def sbufBcat (buf : List UInt8) (st : State σ) : Except Overrun (ℤ × State σ) :=
  if st.s.sError ≠ 0 then .ok (-1, st) else putBytes gives buf st

def sbufBcpy (buf : List UInt8) (st : State σ) : Except Overrun (ℤ × State σ) :=
  sbufBcat gives buf (sbufClear st)

def sbufCat (str : CString) (st : State σ) : Except Overrun (ℤ × State σ) :=
  sbufBcat gives str.bytes st

def sbufCpy (str : CString) (st : State σ) : Except Overrun (ℤ × State σ) :=
  sbufCat gives str (sbufClear st)

/-- What the arguments give for a format: a text, or a conversion that fails after a part
of it. -/
inductive Formatted
  | text (bytes : List UInt8)
  | failed (written : List UInt8)
  deriving DecidableEq

def Formatted.bytes : Formatted → List UInt8
  | .text bytes => bytes
  | .failed written => written

/-- The result of `vsnprintf`; it is negative also when an int does not hold the length. -/
def Formatted.result : Formatted → ℤ
  | .text bytes => if bytes.length ≤ intMax then bytes.length else -1
  | .failed _ => -1

/-- The room is a `size_t`. -/
def vsnprintf (b : Storage) (start room : ℤ) (fmt : Formatted) : Except Overrun (Storage × ℤ) :=
  let size := (room % 18446744073709551616).toNat
  if size = 0 then .ok (b, fmt.result)
  else do
    let b ← b.store start (fmt.bytes.take (size - 1) ++ [0])
    .ok (b, fmt.result)

/-- Without room for a text, what is drained or else added to the storage. -/
def printRoom (len : ℤ) (st : State σ) : Except Overrun (ℤ × State σ) :=
  match st.s.sDrainFunc with
  | some func =>
    if 0 < st.s.sLen then sbufDrain func st else sbufExtend gives (len - st.s.freeSpace) st
  | none => sbufExtend gives (len - st.s.freeSpace) st

/-- The loop of `sbuf_vprintf`, which returns the last result of `vsnprintf`. -/
def printLoop (fmt : Formatted) : ℕ → State σ → Except Overrun (ℤ × State σ)
  | 0, _ => .error .outOfFuel
  | fuel + 1, st => do
    let (buf, len) ← vsnprintf st.s.sBuf st.s.sLen (st.s.freeSpace + 1) fmt
    let st : State σ := ⟨{ st.s with sBuf := buf }, st.w⟩
    if len ≤ st.s.freeSpace then .ok (len, st)
    else do
      let (error, st) ← printRoom gives len st
      if error = 0 then printLoop fmt fuel st else .ok (len, st)

def sbufVprintf (fmt : Formatted) (st : State σ) : Except Overrun (ℤ × State σ) :=
  if st.s.sError ≠ 0 then .ok (-1, st)
  else do
    -- every round but the last two drains a byte
    let (len, st) ← printLoop gives fmt (st.s.sLen.toNat + 2) st
    let len := if st.s.freeSpace < len then st.s.freeSpace else len
    let s : Sbuf σ := { st.s with
      sLen := st.s.sLen + len,
      sSectLen := if st.s.isSection then st.s.sSectLen + len else st.s.sSectLen }
    let s := if s.hasRoom = false ∧ s.canExtend = false then { s with sError := enomem } else s
    .ok (if s.sError ≠ 0 then -1 else 0, ⟨s, st.w⟩)

def sbufPutc (c : UInt8) (st : State σ) : Except Overrun (ℤ × State σ) := do
  let st ← sbufPutByte gives c st
  .ok (if st.s.sError ≠ 0 then -1 else 0, st)

/-- In the C locale. -/
def isspace (c : UInt8) : Bool := c = 32 ∨ (9 ≤ c ∧ c ≤ 13)

/-- The loop of `sbuf_trim`. -/
def trimLoop : ℕ → State σ → Except Overrun (State σ)
  | 0, st => .ok st
  | fuel + 1, st =>
    if 0 < st.s.sLen then do
      let last ← st.s.sBuf.load (st.s.sLen - 1) 1
      if last.all isspace then
        trimLoop fuel ⟨{ st.s with
          sLen := st.s.sLen - 1,
          sSectLen := if st.s.isSection then st.s.sSectLen - 1 else st.s.sSectLen }, st.w⟩
      else .ok st
    else .ok st

def sbufTrim (st : State σ) : Except Overrun (ℤ × State σ) :=
  if st.s.sError ≠ 0 then .ok (-1, st)
  else do
    let st ← trimLoop st.s.sLen.toNat st
    .ok (0, st)

def sbufError (s : Sbuf σ) : ℤ := s.sError

/-- The loop of `sbuf_finish`, in which every drain takes a byte or fails. -/
def drainLoop (func : Drain σ) : ℕ → State σ → Except Overrun (State σ)
  | fuel, st =>
    if 0 < st.s.sLen ∧ st.s.sError = 0 then
      match fuel with
      | 0 => .error .outOfFuel
      | fuel + 1 => do
        let (error, st) ← sbufDrain func st
        drainLoop func fuel ⟨{ st.s with sError := error }, st.w⟩
    else .ok st

def drainAll (st : State σ) : Except Overrun (State σ) :=
  match st.s.sDrainFunc with
  | some func => drainLoop func st.s.sLen.toNat st
  | none => .ok st

def sbufFinish (st : State σ) : Except Overrun (ℤ × State σ) := do
  let st ← drainAll st
  let buf ← st.s.sBuf.store st.s.sLen [0]
  let s : Sbuf σ := { st.s with sBuf := buf, sFlags := { st.s.sFlags with finished := true } }
  .ok (if s.sError ≠ 0 then -1 else 0, ⟨s, st.w⟩)

def sbufData (s : Sbuf σ) : Storage := s.sBuf

def sbufLen (s : Sbuf σ) : ℤ := if s.sError ≠ 0 then -1 else s.sLen

def sbufDelete (st : State σ) : Except Overrun (World σ) := do
  let w ← freeBuf st.s st.w
  if st.s.sFlags.dynstruct then free st.s.self w else .ok w

def sbufDone (s : Sbuf σ) : Bool := s.sFlags.finished

/-- The length that is written to `old_lenp`, and the new state. -/
def sbufStartSection (st : State σ) : ℤ × State σ :=
  if st.s.isSection = false then
    (-1, ⟨{ st.s with sFlags := { st.s.sFlags with insection := true } }, st.w⟩)
  else (st.s.sSectLen, ⟨{ st.s with sSectLen := 0 }, st.w⟩)

/-- `roundup` is computed in a `size_t`, and the difference is stored in an `ssize_t`. -/
def padding (sectLen : ℤ) (pad : ℕ) : ℤ :=
  ((sectLen + (pad - 1)) % 18446744073709551616 / pad * pad - sectLen).bmod 18446744073709551616

/-- The loop of `sbuf_end_section`. -/
def padLoop (c : UInt8) : ℕ → State σ → Except Overrun (State σ)
  | 0, st => .ok st
  | len + 1, st =>
    if st.s.sError = 0 then do
      let st ← sbufPutByte gives c st
      padLoop c len st
    else .ok st

def padSection (pad : ℕ) (c : UInt8) (st : State σ) : Except Overrun (State σ) :=
  if 1 < pad then padLoop gives c (padding st.s.sSectLen pad).toNat st else .ok st

def sbufEndSection (oldLen : ℤ) (pad : ℕ) (c : UInt8) (st : State σ) :
    Except Overrun (ℤ × State σ) := do
  let st ← padSection gives pad c st
  let len := st.s.sSectLen
  let s : Sbuf σ :=
    if oldLen = -1 then
      { st.s with sSectLen := 0, sFlags := { st.s.sFlags with insection := false } }
    else { st.s with sSectLen := st.s.sSectLen + oldLen }
  .ok (if s.sError ≠ 0 then -1 else len, ⟨s, st.w⟩)

end Operations

end OpenXPC.StringBuffers
