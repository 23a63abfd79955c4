import OpenXPC.Hashing
import OpenXPC.Stores
import OpenXPC.TailQueue

/-! # Objects and the blocks they are made of

Memory at the level of `malloc`: an object is a block, and so are each pair of a
dictionary and the buffer of each string and data object, which it refers to by
address. Blocks of different kinds are disjoint, so that each kind has addresses of its
own. The queue of an array runs through the links in the blocks of its elements; a pair
is only ever in the queue of its dictionary, which is the list of the pairs in it. -/
namespace OpenXPC.Blocks
open Stores TailQueue

/-- The values that lie in the union itself, and the name that lies behind it in a
connection. -/
inductive Scalar
  | null
  | bool (value : Bool)
  | int64 (value : Int64)
  | uint64 (value : UInt64)
  | double (bits : UInt64)
  | date (interval : Int64)
  | fd (file : ℕ)
  | endpoint (port : UInt64)
  | uuid (bytes : BitVec 128)
  | connection (busname : CString)
  deriving DecidableEq

def Scalar.leaf : Scalar → Leaf
  | .null => .null
  | .bool value => .bool value
  | .int64 value => .int64 value
  | .uint64 value => .uint64 value
  | .double bits => .double bits
  | .date interval => .date interval
  | .fd file => .fd file
  | .endpoint port => .endpoint port
  | .uuid bytes => .uuid bytes
  | .connection busname => .connection busname

/-- The union with its type; `word` are the first eight bytes of it as they lie in
memory, those included that no constructor has written. -/
inductive XpcU
  | scalar (v : Scalar) (word : UInt64)
  | str (str : ℕ)
  | data (ptr : ℕ)
  | array (tqhFirst : Option ObjId) (tqhLast : Cell ObjId ObjId)
  | dict (head : List ℕ)
  deriving DecidableEq

/-- The links of an element; a field holds `none` until it is first written. -/
structure Link where
  tqeNext : Option (Option ObjId)
  tqePrev : Option (Cell ObjId ObjId)
  deriving DecidableEq

structure ObjectBlock where
  xoFlags : UInt16
  xoRefcnt : UInt32
  xoSize : ℕ
  xoU : XpcU
  xoLink : Link
  deriving DecidableEq

/-- The key is borrowed from the client, and nobody writes to it. -/
structure XpcDictPair where
  key : CString
  value : ObjId
  deriving DecidableEq

structure Memory where
  objects : Store ObjectBlock
  pairs : Store XpcDictPair
  strings : Store CString
  data : Store (List UInt8)

namespace Memory

def deref {α : Type} (s : Store α) (i : ℕ) : Except Fault α :=
  match s.get i with
  | some a => .ok a
  | none => .error .dangling

theorem deref_of_get {α : Type} {s : Store α} {i : ℕ} {a : α} (hi : s.get i = some a) :
    deref s i = .ok a := by simp [deref, hi]

theorem get_of_deref {α : Type} {s : Store α} {i : ℕ} {a : α} (hi : deref s i = .ok a) :
    s.get i = some a := by
  unfold deref at hi
  split at hi
  · rename_i b hb
    cases hi
    exact hb
  · cases hi

def setObject (m : Memory) (x : ObjId) (o : ObjectBlock) : Memory :=
  { m with objects := m.objects.set x o }

end Memory

/-- A field that was never written holds an arbitrary pointer. -/
def written {α : Type} : Option α → Except Fault α
  | some a => .ok a
  | none => .error .wildRead

def XpcU.dictHead : XpcU → Except Fault (List ℕ)
  | .dict head => .ok head
  | _ => .error .wrongType

def XpcU.arrayHead : XpcU → Except Fault (Option ObjId × Cell ObjId ObjId)
  | .array tqhFirst tqhLast => .ok (tqhFirst, tqhLast)
  | _ => .error .wrongType

/-! ## Queues of objects -/

namespace Memory

def tqeNext (m : Memory) (e : ObjId) : Except Fault (Option ObjId) := do
  let xo ← deref m.objects e
  written xo.xoLink.tqeNext

def tqePrev (m : Memory) (e : ObjId) : Except Fault (Cell ObjId ObjId) := do
  let xo ← deref m.objects e
  written xo.xoLink.tqePrev

def tqhLast (m : Memory) (h : ObjId) : Except Fault (Cell ObjId ObjId) := do
  let xo ← deref m.objects h
  let (_, last) ← xo.xoU.arrayHead
  .ok last

/-- A pointer is stored in the cell. -/
def store (m : Memory) (c : Cell ObjId ObjId) (p : Option ObjId) : Except Fault Memory :=
  match c with
  | .first h => do
    let xo ← deref m.objects h
    let (_, last) ← xo.xoU.arrayHead
    .ok (m.setObject h { xo with xoU := .array p last })
  | .next e => do
    let xo ← deref m.objects e
    .ok (m.setObject e { xo with xoLink := { xo.xoLink with tqeNext := some p } })

def setPrev (m : Memory) (e : ObjId) (c : Cell ObjId ObjId) : Except Fault Memory := do
  let xo ← deref m.objects e
  .ok (m.setObject e { xo with xoLink := { xo.xoLink with tqePrev := some c } })

def setLast (m : Memory) (h : ObjId) (c : Cell ObjId ObjId) : Except Fault Memory := do
  let xo ← deref m.objects h
  let (first, _) ← xo.xoU.arrayHead
  .ok (m.setObject h { xo with xoU := .array first c })

/-- `TAILQ_INSERT_TAIL` -/
def insertTail (m : Memory) (h e : ObjId) : Except Fault Memory := do
  let m ← m.store (.next e) none
  let m ← m.setPrev e (← m.tqhLast h)
  let m ← m.store (← m.tqhLast h) (some e)
  m.setLast h (.next e)

/-- What points back at a cell: the element that the cell leads to, or the head. -/
def setBack (m : Memory) (h : ObjId) (p : Option ObjId) (c : Cell ObjId ObjId) :
    Except Fault Memory :=
  match p with
  | some n => m.setPrev n c
  | none => m.setLast h c

/-- `TAILQ_INSERT_AFTER` -/
def insertAfter (m : Memory) (h listelm e : ObjId) : Except Fault Memory := do
  let m ← m.store (.next e) (← m.tqeNext listelm)
  let m ← m.setBack h (← m.tqeNext e) (.next e)
  let m ← m.store (.next listelm) (some e)
  m.setPrev e (.next listelm)

/-- `TAILQ_REMOVE` -/
def remove (m : Memory) (h e : ObjId) : Except Fault Memory := do
  let m ← m.setBack h (← m.tqeNext e) (← m.tqePrev e)
  m.store (← m.tqePrev e) (← m.tqeNext e)

section Equations

variable {m : Memory} {x : ObjId} {o : ObjectBlock} {first : Option ObjId} {last : Cell ObjId ObjId}

theorem tqhLast_of_get (hx : m.objects.get x = some o) (hu : o.xoU = .array first last) :
    m.tqhLast x = .ok last := by
  rw [tqhLast, deref_of_get hx, ok_bind, hu]
  rfl

theorem store_first_of_get (hx : m.objects.get x = some o) (hu : o.xoU = .array first last)
    (p : Option ObjId) : m.store (.first x) p = .ok (m.setObject x { o with xoU := .array p last }) := by
  rw [store, deref_of_get hx, ok_bind, hu]
  rfl

theorem store_next_of_get (hx : m.objects.get x = some o) (p : Option ObjId) :
    m.store (.next x) p =
      .ok (m.setObject x { o with xoLink := { o.xoLink with tqeNext := some p } }) := by
  rw [store, deref_of_get hx]
  rfl

theorem setPrev_of_get (hx : m.objects.get x = some o) (c : Cell ObjId ObjId) :
    m.setPrev x c =
      .ok (m.setObject x { o with xoLink := { o.xoLink with tqePrev := some c } }) := by
  rw [setPrev, deref_of_get hx]
  rfl

theorem setLast_of_get (hx : m.objects.get x = some o) (hu : o.xoU = .array first last)
    (c : Cell ObjId ObjId) : m.setLast x c = .ok (m.setObject x { o with xoU := .array first c }) := by
  rw [setLast, deref_of_get hx, ok_bind, hu]
  rfl

end Equations

/-- The element a traversal from a pointer reaches after the given number of steps. -/
def nth (m : Memory) : ℕ → Option ObjId → Except Fault (Option ObjId)
  | _, none => .ok none
  | 0, some e => .ok (some e)
  | n + 1, some e => do
    let next ← m.tqeNext e
    m.nth n next

end Memory

/-! ## Constructors -/

def xpcPrimCreateFlags (m : Memory) (value : XpcU) (size : ℕ) (flags : UInt16) : Memory × ObjId :=
  let xo : ObjectBlock :=
    { xoSize := size, xoFlags := flags, xoU := value, xoRefcnt := 1, xoLink := ⟨none, none⟩ }
  ({ m with objects := m.objects.alloc xo }, m.objects.size)

def xpcPrimCreate (m : Memory) (value : XpcU) (size : ℕ) : Memory × ObjId :=
  xpcPrimCreateFlags m value size 0

def strdup (m : Memory) (string : CString) : Memory × ℕ :=
  ({ m with strings := m.strings.alloc string }, m.strings.size)

def xpcStringCreate (m : Memory) (string : CString) : Memory × ObjId :=
  let (m, str) := strdup m string
  xpcPrimCreate m (.str str) string.bytes.length

def xpcDataCreate (m : Memory) (bytes : List UInt8) : Memory × ObjId :=
  xpcPrimCreate { m with data := m.data.alloc bytes } (.data m.data.size) bytes.length

/-- The constructors without children; `word` is the word of a scalar. -/
def leafCreate (m : Memory) (word : UInt64) : Leaf → Memory × ObjId
  | .null => xpcPrimCreate m (.scalar .null word) 0
  | .bool value => xpcPrimCreate m (.scalar (.bool value) word) 1
  | .int64 value => xpcPrimCreate m (.scalar (.int64 value) word) 1
  | .uint64 value => xpcPrimCreate m (.scalar (.uint64 value) word) 1
  | .double bits => xpcPrimCreate m (.scalar (.double bits) word) 1
  | .date interval => xpcPrimCreate m (.scalar (.date interval) word) 1
  | .fd file => xpcPrimCreate m (.scalar (.fd file) word) 1
  | .endpoint port => xpcPrimCreate m (.scalar (.endpoint port) word) 1
  | .uuid bytes => xpcPrimCreate m (.scalar (.uuid bytes) word) 1
  | .connection busname => xpcPrimCreate m (.scalar (.connection busname) word) 0
  | .string string => xpcStringCreate m string
  | .data bytes => xpcDataCreate m bytes

/-- Without entries. -/
def xpcDictionaryCreate (m : Memory) : Memory × ObjId := xpcPrimCreate m (.dict []) 0

def xpcArrayCreate (m : Memory) : Memory × ObjId :=
  xpcPrimCreate m (.array none (.first m.objects.size)) 0

/-! ## Setters -/

def xpcRetain (m : Memory) (obj : ObjId) : Except Fault Memory := do
  let xo ← Memory.deref m.objects obj
  .ok (m.setObject obj { xo with xoRefcnt := xo.xoRefcnt + 1 })

theorem xpcRetain_of_get {m : Memory} {x : ObjId} {o : ObjectBlock} (hx : m.objects.get x = some o) :
    xpcRetain m x = .ok (m.setObject x { o with xoRefcnt := o.xoRefcnt + 1 }) := by
  rw [xpcRetain, Memory.deref_of_get hx]
  rfl

/-- The first pair with the key. -/
def findPair (m : Memory) (key : CString) : List ℕ → Except Fault (Option ℕ)
  | [] => .ok none
  | p :: ps => do
    let pair ← Memory.deref m.pairs p
    if pair.key = key then .ok (some p) else findPair m key ps

def xpcDictionarySetValue (m : Memory) (xdict : ObjId) (key : CString) (value : ObjId) :
    Except Fault Memory := do
  let xo ← Memory.deref m.objects xdict
  let head ← xo.xoU.dictHead
  match ← findPair m key head with
  | some p => do
    let pair ← Memory.deref m.pairs p
    .ok { m with pairs := m.pairs.set p { pair with value } }
  | none =>
    let m' := { m with pairs := m.pairs.alloc { key, value } }
    xpcRetain (m'.setObject xdict
      { xo with xoSize := xo.xoSize + 1, xoU := .dict (head ++ [m.pairs.size]) }) value

def xpcArrayAppendValue (m : Memory) (xarray value : ObjId) : Except Fault Memory := do
  let m ← m.insertTail xarray value
  xpcRetain m value

def xpcArraySetValue (m : Memory) (xarray : ObjId) (index : ℕ) (value : ObjId) :
    Except Fault Memory := do
  if index = xpcArrayAppend then
    xpcArrayAppendValue m xarray value
  else
    let xo ← Memory.deref m.objects xarray
    let (first, _) ← xo.xoU.arrayHead
    if index ≥ xo.xoSize then
      .ok m
    else
      match ← m.nth index first with
      | none => .ok m
      | some xotmp => do
        -- the new element stands where the macro expects the one in the queue
        let m ← m.insertAfter xarray value xotmp
        let m ← m.remove xarray xotmp
        let m ← xpcRetain m value
        let _ ← Memory.deref m.objects xotmp
        .ok { m with objects := m.objects.free xotmp }

/-! ## Readers -/

def getLeaf {β : Type} (m : Memory) (x : ObjId) (read : Leaf → Option β) (dflt : β) :
    Except Fault β := do
  let xo ← Memory.deref m.objects x
  match xo.xoU with
  | .scalar v _ => .ok ((read v.leaf).getD dflt)
  | .str str => do
    let string ← Memory.deref m.strings str
    .ok ((read (.string string)).getD dflt)
  | .data ptr => do
    let bytes ← Memory.deref m.data ptr
    .ok ((read (.data bytes)).getD dflt)
  | .array _ _ | .dict _ => .ok dflt

def xpcDictionaryGetValue (m : Memory) (xdict : ObjId) (key : CString) :
    Except Fault (Option ObjId) := do
  let xo ← Memory.deref m.objects xdict
  let head ← xo.xoU.dictHead
  match ← findPair m key head with
  | some p => do
    let pair ← Memory.deref m.pairs p
    .ok (some pair.value)
  | none => .ok none

/-- `xpc_dictionary_get_count` and `xpc_array_get_count` -/
def getCount (m : Memory) (x : ObjId) : Except Fault ℕ := do
  let xo ← Memory.deref m.objects x
  .ok xo.xoSize

def xpcArrayGetValue (m : Memory) (xarray : ObjId) (index : ℕ) : Except Fault (Option ObjId) := do
  let xo ← Memory.deref m.objects xarray
  let (first, _) ← xo.xoU.arrayHead
  if index > xo.xoSize then .ok none else m.nth index first

section Traversals

variable {σ : Type} (mem : σ → Memory)

/-- The applier may write to the memory, but not to the queue of the pairs. -/
def applyPairs (applier : CString → ObjId → σ → Except Fault (σ × Bool)) :
    List ℕ → σ → Except Fault (σ × Bool)
  | [], udata => .ok (udata, true)
  | p :: ps, udata => do
    let pair ← Memory.deref (mem udata).pairs p
    let (udata, go) ← applier pair.key pair.value udata
    if go then applyPairs applier ps udata else .ok (udata, false)

def xpcDictionaryApplyFun (xdict : ObjId) (applier : CString → ObjId → σ → Except Fault (σ × Bool))
    (udata : σ) : Except Fault (σ × Bool) := do
  let xo ← Memory.deref (mem udata).objects xdict
  let head ← xo.xoU.dictHead
  applyPairs mem applier head udata

/-- The fuel bounds the number of elements visited. -/
def applyElems (applier : ℕ → ObjId → σ → Except Fault (σ × Bool)) :
    ℕ → ℕ → Option ObjId → σ → Except Fault (σ × Bool)
  | _, _, none, udata => .ok (udata, true)
  | 0, _, some _, _ => .error .outOfFuel
  | n + 1, i, some e, udata => do
    let (udata, go) ← applier i e udata
    if go then do
      let next ← (mem udata).tqeNext e
      applyElems applier n (i + 1) next udata
    else .ok (udata, false)

/-- No queue is longer than the number of objects. -/
def xpcArrayApplyFun (xarray : ObjId) (applier : ℕ → ObjId → σ → Except Fault (σ × Bool))
    (udata : σ) : Except Fault (σ × Bool) := do
  let xo ← Memory.deref (mem udata).objects xarray
  let (first, _) ← xo.xoU.arrayHead
  applyElems mem applier (mem udata).objects.size 0 first udata

end Traversals

/-- The fuel bounds the depth of the recursion. -/
def xpcHash (m : Memory) : ℕ → ObjId → Except Fault UInt64
  | 0, _ => .error .outOfFuel
  | n + 1, obj => do
    let xo ← Memory.deref m.objects obj
    match xo.xoU with
    | .scalar v word =>
      match v with
      | .bool _ | .int64 _ | .uint64 _ | .date _ | .endpoint _ => .ok word
      | .null | .double _ | .fd _ | .uuid _ | .connection _ => .ok 0
    | .str str => do
      let string ← Memory.deref m.strings str
      .ok (xpcDataHash string.bytes xo.xoSize)
    | .data ptr => do
      let bytes ← Memory.deref m.data ptr
      .ok (xpcDataHash bytes xo.xoSize)
    | .dict _ => do
      let (hash, _) ← xpcDictionaryApplyFun (fun _ => m) obj (fun k v hash => do
        let valueHash ← xpcHash m n v
        .ok (dictHashCb k hash valueHash, true)) 0
      .ok hash
    | .array _ _ => do
      let (hash, _) ← xpcArrayApplyFun (fun _ => m) obj (fun _ v hash => do
        let valueHash ← xpcHash m n v
        .ok (arrayHashCb hash valueHash, true)) 0
      .ok hash

/-! ## Copying -/

section Callbacks

variable (copy : Memory → ObjId → Except Fault (Memory × Option ObjId))

/-- The callbacks insert what was copied; NULL cannot be inserted. -/
def dictCopyCb (xotmp : ObjId) (k : CString) (v : ObjId) (m : Memory) :
    Except Fault (Memory × Bool) := do
  match ← copy m v with
  | (_, none) => .error .nullValue
  | (m, some value) => do
    let m ← xpcDictionarySetValue m xotmp k value
    .ok (m, true)

def arrayCopyCb (xotmp : ObjId) (idx : ℕ) (v : ObjId) (m : Memory) :
    Except Fault (Memory × Bool) := do
  match ← copy m v with
  | (m, none) => do
    let xo ← Memory.deref m.objects xotmp
    if idx ≠ xpcArrayAppend ∧ idx ≥ xo.xoSize then .ok (m, true) else .error .nullValue
  | (m, some value) => do
    let m ← xpcArraySetValue m xotmp idx value
    .ok (m, true)

end Callbacks

/-- The union is copied as it is, with the bytes that were never written. -/
def copyScalar (m : Memory) (v : Scalar) (word : UInt64) : Memory × Option ObjId :=
  match v with
  | .bool _ | .int64 _ | .uint64 _ | .date _ | .endpoint _ =>
    let (m, xo) := xpcPrimCreate m (.scalar v word) 1
    (m, some xo)
  | .null | .double _ | .fd _ | .uuid _ | .connection _ => (m, none)

/-- The fuel bounds the depth of the recursion. A string is duplicated twice, and the
first duplicate is lost. -/
def xpcCopy : ℕ → Memory → ObjId → Except Fault (Memory × Option ObjId)
  | 0, _, _ => .error .outOfFuel
  | n + 1, m, obj => do
    let xo ← Memory.deref m.objects obj
    match xo.xoU with
    | .scalar v word => .ok (copyScalar m v word)
    | .str str => do
      let string ← Memory.deref m.strings str
      let (m, dup) := strdup m string
      let string ← Memory.deref m.strings dup
      let (m, xo) := xpcStringCreate m string
      .ok (m, some xo)
    | .data ptr => do
      let newdata ← Memory.deref m.data ptr
      let (m, xo) := xpcDataCreate m (newdata.take xo.xoSize)
      .ok (m, some xo)
    | .dict _ => do
      let (m, xotmp) := xpcDictionaryCreate m
      let (m, _) ← xpcDictionaryApplyFun id obj (dictCopyCb (xpcCopy n) xotmp) m
      .ok (m, some xotmp)
    | .array _ _ => do
      let (m, xotmp) := xpcArrayCreate m
      let (m, _) ← xpcArrayApplyFun id obj (arrayCopyCb (xpcCopy n) xotmp) m
      .ok (m, some xotmp)

end OpenXPC.Blocks
