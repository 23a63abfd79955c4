import Mathlib.Algebra.Ring.Int.Defs
import Mathlib.Algebra.Ring.Nat
import Mathlib.Data.List.TakeWhile
import OpenXPC.Descriptors
import OpenXPC.Objects

/-! # The program of a job and its arguments

`setup_subproc` runs in the new process: it closes descriptors, chooses the program, fills
an argument vector that it has allocated, and calls `execve`. Memory goes on behind the
allocated block, so that a slot beyond it has a meaning. Only what happens up to the call
is followed; a call that returns is logged, and the process exits. -/
namespace OpenXPC.JobArguments
open Descriptors

/-- The part of a `std::string` that is seen through `c_str`. -/
def cStr (s : List UInt8) : CString where
  bytes := s.takeWhile (· ≠ 0)
  noNul h := by simpa using List.mem_takeWhile_imp h

structure Job where
  isBootstrap : Bool
  program : Option (List UInt8)
  progargs : List (List UInt8)

/-- Where `setup_subproc` ends before it calls `execve`. -/
inductive Ending
  | outOfRange    -- a vector is read beyond its end
  | assertFailed
  deriving DecidableEq

/-- A block of pointers; NULL is `none`. -/
structure Block where
  words : ℕ → Option CString
  slots : ℕ
  written : List ℕ

def Block.store (b : Block) (i : ℕ) (p : Option CString) : Block :=
  ⟨Function.update b.words i p, b.slots, i :: b.written⟩

@[simp] theorem Block.words_store (b : Block) (i j : ℕ) (p : Option CString) :
    (b.store i p).words j = if j = i then p else b.words j := Function.update_apply ..

@[simp] theorem Block.mem_written_store {b : Block} {i j : ℕ} {p : Option CString} :
    j ∈ (b.store i p).written ↔ j = i ∨ j ∈ b.written := List.mem_cons

/-- What lies in memory from the start of a new block on, or `none` when the request
fails, as one beyond half of the address space does. -/
structure Allocator where
  malloc : ℕ → Option (ℕ → Option CString)
  large : ∀ bytes, 2 ^ 63 ≤ bytes → malloc bytes = none

/-- The arguments of the call, with the descriptors that are then open. -/
structure Execve (File : Type) where
  exe : CString
  argv : Block
  table : Table File

variable {File : Type}

def argAt (progargs : List (List UInt8)) (i : ℕ) : Except Ending CString :=
  match progargs[i]? with
  | some arg => .ok (cStr arg)
  | none => .error .outOfRange

/-- A `size_t` that is converted to `int`. -/
def intOfSize (n : ℕ) : ℤ := (n : ℤ).bmod (2 ^ 32)

/-- An array of pointers, for a count that is converted to `size_t`. -/
def allocate (a : Allocator) (argc : ℤ) : Except Ending Block :=
  let bytes := (8 * argc % 2 ^ 64).toNat
  match a.malloc bytes with
  | some words => .ok ⟨words, bytes / 8, []⟩
  | none => .error .assertFailed

/-- The loop from `i` on, with the number of rounds that are left. -/
def fillFrom (progargs : List (List UInt8)) : ℕ → ℕ → Block → Except Ending Block
  | 0, _, argv => .ok argv
  | n + 1, i, argv => do
    let arg ← argAt progargs i
    fillFrom progargs n (i + 1) (argv.store i (some arg))

/-- The vector. The number of arguments is kept in an `int`. -/
def makeArgv (a : Allocator) (job : Job) : Except Ending Block :=
  match job.progargs with
  | [] =>
    match job.program with
    | none => .error .assertFailed
    | some program => do
      let argv ← allocate a 1
      .ok (argv.store 1 (some (cStr program)))
  | args => do
    let argc := intOfSize args.length
    let argv ← allocate a argc
    fillFrom args argc.toNat 0 argv

def exeOf (job : Job) : Except Ending CString :=
  match job.program with
  | some program => .ok (cStr program)
  | none => argAt job.progargs 0

/-- The channel of the bootstrap job is left open. -/
def keptFd (job : Job) : ℤ := if job.isBootstrap then 55 else -1

def setupSubproc (a : Allocator) (job : Job) (table : Table File) :
    Except Ending (Execve File) := do
  let (table, _) := closeFdsExcept [keptFd job] table
  let exe ← exeOf job
  let argv ← makeArgv a job
  .ok { exe, argv, table }

/-! ## What the call should be -/

/-- The arguments of the job, or else the program alone. -/
def Job.arguments (job : Job) : List CString :=
  match job.progargs with
  | [] => job.program.toList.map cStr
  | args => args.map cStr

/-- The program if there is one, and otherwise the first argument. -/
def Job.executable (job : Job) : Option CString :=
  match job.program with
  | some program => some (cStr program)
  | none => job.arguments.head?

/-- From the first slot on, the list and then NULL. -/
def Block.Reads (b : Block) (args : List CString) : Prop :=
  ∀ i, i ≤ args.length → b.words i = args[i]?

/-- `execve` gets the executable and the arguments with their terminator, all in the block. -/
structure Starts (job : Job) (call : Execve File) : Prop where
  exe : some call.exe = job.executable
  reads : call.argv.Reads job.arguments
  terminated : job.arguments.length < call.argv.slots
  written : ∀ i ∈ call.argv.written, i < call.argv.slots

/-- `execve` is reached, without a read beyond the arguments, and called as it should be. -/
def StartsWell (a : Allocator) (job : Job) (table : Table File) : Prop :=
  ∃ call, setupSubproc a job table = .ok call ∧ Starts job call

section Vectors

variable {a : Allocator} {job : Job} {args : List (List UInt8)} {argv b : Block} {i n : ℕ} {argc : ℤ}

/-- The rounds fill their slots with the arguments, and write no others. -/
theorem fillFrom_ok (argv : Block) (hn : i + n ≤ args.length) :
    ∃ b, fillFrom args n i argv = .ok b ∧ b.slots = argv.slots ∧
      (∀ j, b.words j = if i ≤ j ∧ j < i + n then (args[j]?).map cStr else argv.words j) ∧
      ∀ j, j ∈ b.written ↔ (i ≤ j ∧ j < i + n) ∨ j ∈ argv.written := by
  induction n generalizing i argv with
  | zero =>
    refine ⟨argv, rfl, rfl, fun j => ?_, fun j => ?_⟩
    · rw [if_neg (by omega)]
    · have hnone : ¬ (i ≤ j ∧ j < i + 0) := by omega
      rw [or_iff_right hnone]
  | succ n ih =>
    have hlt : i < args.length := by omega
    have harg : argAt args i = .ok (cStr args[i]) := by simp [argAt, hlt]
    obtain ⟨b, he, hslots, hwords, hwritten⟩ := ih (i := i + 1) (argv.store i (some (cStr args[i])))
      (by omega)
    refine ⟨b, ?_, hslots, fun j => ?_, fun j => ?_⟩
    · rw [fillFrom, harg]
      exact he
    · rw [hwords, Block.words_store]
      by_cases hj : j = i
      · subst hj
        rw [if_neg (by omega), if_pos rfl, if_pos (by omega), List.getElem?_eq_getElem hlt]
        rfl
      · have hrange : (i + 1 ≤ j ∧ j < i + 1 + n) ↔ (i ≤ j ∧ j < i + (n + 1)) := by omega
        rw [if_neg hj]
        simp only [hrange]
    · have hrange : (i ≤ j ∧ j < i + (n + 1)) ↔ (i + 1 ≤ j ∧ j < i + 1 + n) ∨ j = i := by omega
      rw [hwritten, Block.mem_written_store, hrange, or_assoc]

theorem allocate_ok (he : allocate a argc = .ok argv) :
    a.malloc (8 * argc % 2 ^ 64).toNat = some argv.words ∧
      argv.slots = (8 * argc % 2 ^ 64).toNat / 8 ∧ argv.written = [] := by
  unfold allocate at he
  dsimp only at he
  split at he
  · rename_i words hwords
    cases he
    exact ⟨hwords, rfl, rfl⟩
  · cases he

theorem intOfSize_cases (n : ℕ) : (0 ≤ intOfSize n ∧ intOfSize n < 2 ^ 31 ∧ intOfSize n ≤ n) ∨
    (-2 ^ 31 ≤ intOfSize n ∧ intOfSize n < 0) := by
  unfold intOfSize
  have hlow : -2 ^ 31 ≤ (n : ℤ).bmod (2 ^ 32) := Int.le_bmod (by decide)
  have hhigh : (n : ℤ).bmod (2 ^ 32) < 2 ^ 31 := Int.bmod_lt (by decide)
  have hle : (n : ℤ).bmod (2 ^ 32) ≤ n := by
    rw [Int.bmod_eq_emod]
    split_ifs <;> omega
  omega

theorem intOfSize_of_lt (hn : n < 2 ^ 31) : intOfSize n = n := by
  apply Int.bmod_eq_of_le <;> omega

/-- A count that becomes negative asks for more than there is; no block has more slots
than there are arguments. -/
theorem slots_eq (he : allocate a (intOfSize n) = .ok argv) :
    argv.slots = (intOfSize n).toNat ∧ argv.slots ≤ n := by
  obtain ⟨hmalloc, hslots, -⟩ := allocate_ok he
  rcases intOfSize_cases n with ⟨hpos, hlt, hle⟩ | ⟨hlow, hneg⟩
  · omega
  · have hlarge : 2 ^ 63 ≤ (8 * intOfSize n % 2 ^ 64).toNat := by omega
    rw [a.large _ hlarge] at hmalloc
    cases hmalloc

theorem arguments_of_ne_nil (hne : job.progargs ≠ []) :
    job.arguments = job.progargs.map cStr := by
  unfold Job.arguments
  split
  · exact absurd ‹_› hne
  · rfl

theorem arguments_of_nil (hnil : job.progargs = []) :
    job.arguments = job.program.toList.map cStr := by
  rw [Job.arguments, hnil]

theorem makeArgv_eq (hne : job.progargs ≠ []) : makeArgv a job =
    (allocate a (intOfSize job.progargs.length) >>= fun argv =>
      fillFrom job.progargs (intOfSize job.progargs.length).toNat 0 argv) := by
  unfold makeArgv
  split
  · exact absurd ‹_› hne
  · rfl

/-- Of several arguments each has its slot, and there is no other. -/
theorem makeArgv_of_ne_nil (hne : job.progargs ≠ []) (he : makeArgv a job = .ok argv) :
    argv.slots ≤ job.progargs.length ∧ ∀ j, j ∈ argv.written → j < argv.slots := by
  rw [makeArgv_eq hne] at he
  obtain ⟨block, halloc, hfill⟩ := bind_eq_ok.mp he
  obtain ⟨hslots, hle⟩ := slots_eq halloc
  obtain ⟨-, -, hempty⟩ := allocate_ok halloc
  have hfits : 0 + (intOfSize job.progargs.length).toNat ≤ job.progargs.length := by omega
  obtain ⟨b, hb, hbslots, -, hwritten⟩ := fillFrom_ok block hfits
  rw [hfill] at hb
  cases hb
  refine ⟨by rw [hbslots]; exact hle, fun j hj => ?_⟩
  have hj := (hwritten j).mp hj
  rw [hempty, or_iff_left List.not_mem_nil] at hj
  omega

/-- Without arguments the slot behind the block is written. -/
theorem makeArgv_of_nil (hnil : job.progargs = []) (he : makeArgv a job = .ok argv) :
    argv.slots = 1 ∧ 1 ∈ argv.written ∧ (argv.words 1).isSome := by
  rw [makeArgv, hnil] at he
  cases hprogram : job.program with
  | none => rw [hprogram] at he; cases he
  | some program =>
    rw [hprogram] at he
    obtain ⟨block, halloc, he⟩ := bind_eq_ok.mp he
    cases he
    obtain ⟨-, hslots, -⟩ := allocate_ok halloc
    exact ⟨hslots, by simp, by simp⟩

end Vectors

section Calls

variable {a : Allocator} {job : Job} {table : Table File} {call : Execve File} {d : ℕ}

theorem executable_of_exeOf {exe : CString} (he : exeOf job = .ok exe) :
    some exe = job.executable := by
  unfold exeOf at he
  unfold Job.executable
  cases hprogram : job.program with
  | some program =>
    rw [hprogram] at he
    exact congrArg some (Except.ok.inj he).symm
  | none =>
    rw [hprogram] at he
    cases hargs : job.progargs with
    | nil =>
      rw [hargs] at he
      cases he
    | cons x xs =>
      rw [hargs] at he
      rw [arguments_of_ne_nil (by simp [hargs]), hargs]
      exact congrArg some (Except.ok.inj he).symm

/-- All that precedes the call. -/
theorem setupSubproc_cases (he : setupSubproc a job table = .ok call) :
    some call.exe = job.executable ∧ makeArgv a job = .ok call.argv ∧
      call.table = (closeFdsExcept [keptFd job] table).1 := by
  obtain ⟨exe, hexe, he⟩ := bind_eq_ok.mp he
  obtain ⟨argv, hargv, he⟩ := bind_eq_ok.mp he
  cases he
  exact ⟨executable_of_exeOf hexe, hargv, rfl⟩

/-- What stays open in the program that is started. -/
theorem isOpen_inherited (he : setupSubproc a job table = .ok call) :
    IsOpen call.table d ↔
      IsOpen table d ∧ (d < 3 ∨ (job.isBootstrap = true ∧ d = 55) ∨ 1023 ≤ d) := by
  rw [(setupSubproc_cases he).2.2, isOpen_closeFdsExcept, List.mem_singleton]
  have hlisted : (d : ℤ) = keptFd job ↔ job.isBootstrap = true ∧ d = 55 := by
    cases hb : job.isBootstrap with
    | false =>
      have hnever : (d : ℤ) ≠ -1 := by omega
      simp only [keptFd, hb, Bool.false_eq_true, if_false, hnever, false_and]
    | true =>
      simp only [keptFd, hb, if_true, true_and]
      omega
  rw [hlisted]

/-- A job with arguments, of which there are no more than an `int` counts, reaches the
call with a block of exactly its arguments. -/
theorem makeArgv_ok {words : ℕ → Option CString} (hne : job.progargs ≠ [])
    (hlen : job.progargs.length < 2 ^ 31)
    (hmalloc : a.malloc (8 * job.progargs.length) = some words) :
    ∃ argv, makeArgv a job = .ok argv ∧ argv.slots = job.progargs.length ∧
      ∀ i, argv.words i = if i < job.progargs.length then job.arguments[i]? else words i := by
  have hcount := intOfSize_of_lt hlen
  have hbytes : (8 * (job.progargs.length : ℤ) % 2 ^ 64).toNat = 8 * job.progargs.length := by omega
  have halloc : allocate a job.progargs.length = .ok ⟨words, job.progargs.length, []⟩ := by
    simp only [allocate, hbytes, hmalloc, Nat.mul_div_cancel_left _ (by decide : 0 < 8)]
  have hfits : 0 + job.progargs.length ≤ job.progargs.length := Nat.le_of_eq (Nat.zero_add _)
  obtain ⟨b, hb, hslots, hwords, -⟩ := fillFrom_ok ⟨words, job.progargs.length, []⟩ hfits
  refine ⟨b, ?_, hslots, fun i => ?_⟩
  · rw [makeArgv_eq hne, hcount, halloc, ok_bind, Int.toNat_natCast]
    exact hb
  · rw [hwords, arguments_of_ne_nil hne, List.getElem?_map]
    simp only [Nat.zero_le, Nat.zero_add, true_and]

/-- What `execve` reads from the block on are the arguments if and only if there are some
and the word that follows the block in memory happens to be NULL. -/
theorem reads_iff {words : ℕ → Option CString} (hlen : job.progargs.length < 2 ^ 31)
    (hmalloc : a.malloc (8 * job.progargs.length) = some words)
    (he : setupSubproc a job table = .ok call) : call.argv.Reads job.arguments ↔
      job.progargs ≠ [] ∧ words job.progargs.length = none := by
  have hargv := (setupSubproc_cases he).2.1
  by_cases hnil : job.progargs = []
  · obtain ⟨-, -, hsome⟩ := makeArgv_of_nil hnil hargv
    refine iff_of_false (fun hreads => ?_) (fun h => h.1 hnil)
    have hone : job.arguments.length = 1 := by
      rw [arguments_of_nil hnil, List.length_map]
      cases hprogram : job.program with
      | none => simp [makeArgv, hnil, hprogram] at hargv
      | some program => rfl
    rw [hreads 1 (Nat.le_of_eq hone.symm), List.getElem?_eq_none (Nat.le_of_eq hone)] at hsome
    cases hsome
  · obtain ⟨argv, hmake, -, hwords⟩ := makeArgv_ok hnil hlen hmalloc
    obtain rfl : argv = call.argv := Except.ok.inj (hmake.symm.trans hargv)
    have hlength : job.arguments.length = job.progargs.length := by
      rw [arguments_of_ne_nil hnil, List.length_map]
    constructor
    · intro hreads
      refine ⟨hnil, ?_⟩
      have hend := hreads _ (Nat.le_refl _)
      rwa [hwords, hlength, if_neg (Nat.lt_irrefl _),
        List.getElem?_eq_none (Nat.le_of_eq hlength)] at hend
    · intro h i hi
      rw [hwords]
      split_ifs with hlt
      · rfl
      · obtain rfl : i = job.progargs.length := by omega
        rw [h.2, List.getElem?_eq_none (Nat.le_of_eq hlength)]

/-- The block has no slot for a terminator, or is written beyond. -/
theorem not_starts (he : setupSubproc a job table = .ok call) : ¬ Starts job call := by
  intro hstarts
  have hargv := (setupSubproc_cases he).2.1
  by_cases hnil : job.progargs = []
  · obtain ⟨hslots, hwritten, -⟩ := makeArgv_of_nil hnil hargv
    have hlt := hstarts.written 1 hwritten
    omega
  · obtain ⟨hle, -⟩ := makeArgv_of_ne_nil hnil hargv
    have hlt := hstarts.terminated
    rw [arguments_of_ne_nil hnil, List.length_map] at hlt
    omega

/-- No job is started with a vector that is terminated inside its block. -/
theorem not_startsWell (a : Allocator) (job : Job) (table : Table File) :
    ¬ StartsWell a job table := by
  rintro ⟨call, he, hstarts⟩
  exact not_starts he hstarts

end Calls

/-- All memory is NULL, and every request that can succeed does. -/
def zeroed : Allocator where
  malloc bytes := if bytes < 2 ^ 63 then some (fun _ => none) else none
  large _ hbytes := if_neg (Nat.not_lt.mpr hbytes)

/-- The program alone. -/
def programOnly : Job := ⟨false, some keyK.bytes, []⟩

def oneArgument : Job := ⟨false, some keyK.bytes, [keyJ.bytes]⟩

def nothingOpen : Table Unit := fun _ => none

/-- The program alone is stored behind the only slot, which `execve` takes for the end of
the vector; of one argument the vector has that slot and no terminator. -/
theorem vectors_lack_terminator :
    (∃ call, setupSubproc zeroed programOnly nothingOpen = .ok call ∧ call.argv.slots = 1 ∧
      call.argv.words 0 = none ∧ call.argv.written = [1]) ∧
    (∃ call, setupSubproc zeroed oneArgument nothingOpen = .ok call ∧ call.argv.slots = 1 ∧
      call.argv.words 0 = some keyJ) ∧
    ¬ StartsWell zeroed programOnly nothingOpen ∧ ¬ StartsWell zeroed oneArgument nothingOpen := by
  refine ⟨⟨_, rfl, rfl, rfl, rfl⟩, ⟨_, rfl, rfl, rfl⟩, ?_, ?_⟩
  · exact fun ⟨_, he, hstarts⟩ => not_starts he hstarts
  · exact fun ⟨_, he, hstarts⟩ => not_starts he hstarts

end OpenXPC.JobArguments
