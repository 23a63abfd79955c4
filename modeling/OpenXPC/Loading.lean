import OpenXPC.Validation
import OpenXPC.Walks

/-! # Loading the files below the arguments

`load` goes down into directories and hands every regular file to `loadfile`. The path of
an entry is printed into a buffer of `PATH_MAX` bytes, so a long one is cut. -/
namespace OpenXPC.Loading
open Walks

variable {σ ε : Type}

/-- What is found under a path; a directory that cannot be opened has no names. -/
inductive Found
  | missing
  | file (contents : PlistFile)
  | directory (names : Option (List CString))
  | other

abbrev FileSystem := CString → Found

def pathMax : ℕ := 4096

/-- `snprintf(buf, sizeof(buf), "%s/%s", path, de->d_name)` -/
def entryPath (path name : CString) : CString where
  bytes := (path.bytes ++ 47 :: name.bytes).take (pathMax - 1)
  noNul hmem := by
    rcases List.mem_append.mp (List.mem_of_mem_take hmem) with hpath | hname
    · exact path.noNul hpath
    · exact name.noNul ((List.mem_cons.mp hname).resolve_left (by decide))

/-- The entries that are not skipped. -/
def visible (name : CString) : Bool := name.bytes.head? ≠ some 46

def loaddir (load : CString → σ → Except (Halt ε) σ) (path : CString) :
    Option (List CString) → σ → Except (Halt ε) σ
  | none, s => .ok s
  | some names, s =>
    names.foldlM (fun s name => if visible name then load (entryPath path name) s else .ok s) s

/-- The fuel bounds the depth of the recursion. -/
def load (fs : FileSystem) (loadfile : CString → PlistFile → σ → Except ε σ) :
    ℕ → CString → σ → Except (Halt ε) σ
  | 0, _, _ => .error .outOfFuel
  | n + 1, path, s =>
    match fs path with
    | .missing => .ok s
    | .file contents => (loadfile path contents s).mapError .error
    | .directory names => loaddir (load fs loadfile n) path names s
    | .other => .ok s

/-- The arguments after the name of the program. -/
def main (fs : FileSystem) (loadfile : CString → PlistFile → σ → Except ε σ) (n : ℕ)
    (argv : List CString) (s : σ) : Except (Halt ε) σ :=
  argv.foldlM (fun s path => load fs loadfile n path s) s

/-! ## Loading as a walk -/

/-- The paths that `loaddir` goes on with. -/
def below (fs : FileSystem) (path : CString) : List CString :=
  match fs path with
  | .directory (some names) => (names.filter visible).map (entryPath path)
  | _ => []

def visit (fs : FileSystem) (loadfile : CString → PlistFile → σ → Except ε σ) (path : CString) (s : σ) :
    Except ε σ :=
  match fs path with
  | .file contents => loadfile path contents s
  | _ => .ok s

section Walk

variable {fs : FileSystem} {loadfile : CString → PlistFile → σ → Except ε σ} {path p q : CString}

theorem loaddir_names (ld : CString → σ → Except (Halt ε) σ) (path : CString) (names : List CString) (s : σ) :
    loaddir ld path (some names) s =
      ((names.filter visible).map (entryPath path)).foldlM (fun s p => ld p s) s := by
  rw [loaddir]
  induction names generalizing s with
  | nil => rfl
  | cons name names ih =>
    cases hv : visible name with
    | false =>
      rw [List.foldlM_cons, hv, List.filter_cons_of_neg (by simp [hv])]
      exact ih s
    | true =>
      rw [List.foldlM_cons, hv, List.filter_cons_of_pos hv, List.map_cons, List.foldlM_cons, if_pos rfl]
      cases ld (entryPath path name) s with
      | error e => rfl
      | ok s₁ => exact ih s₁

theorem load_eq_walk (n : ℕ) (path : CString) (s : σ) :
    load fs loadfile n path s = walk (below fs) (visit fs loadfile) n path s := by
  induction n generalizing path s with
  | zero => rfl
  | succ n ih =>
    have hload : load fs loadfile n = walk (below fs) (visit fs loadfile) n := by
      funext p s
      exact ih p s
    rw [load, walk, visit, below, hload]
    cases fs path with
    | missing => rfl
    | other => rfl
    | file contents =>
      dsimp only
      cases loadfile path contents s with
      | error e => rfl
      | ok s₁ => rfl
    | directory names =>
      cases names with
      | none => rfl
      | some names => exact loaddir_names _ path names s

/-! ## Where the recursion ends -/

theorem mem_below : q ∈ below fs p ↔ ∃ names name, fs p = .directory (some names) ∧ name ∈ names ∧
    visible name = true ∧ q = entryPath p name := by
  rw [below]
  split
  · rename_i names hdir
    rw [List.mem_map]
    constructor
    · intro hq
      obtain ⟨name, hname, rfl⟩ := hq
      obtain ⟨hmem, hvisible⟩ := List.mem_filter.mp hname
      exact ⟨names, name, hdir, hmem, hvisible, rfl⟩
    · intro hq
      obtain ⟨names', name, hdir', hmem, hvisible, rfl⟩ := hq
      cases hdir.symm.trans hdir'
      exact ⟨name, List.mem_filter.mpr ⟨hmem, hvisible⟩, rfl⟩
  · rename_i hnot
    refine iff_of_false List.not_mem_nil fun hq => ?_
    obtain ⟨names, name, hdir, -⟩ := hq
    exact hnot names hdir

theorem length_entryPath (path name : CString) : (entryPath path name).bytes.length =
    min (pathMax - 1) (path.bytes.length + (name.bytes.length + 1)) := by
  rw [entryPath, List.length_take, List.length_append, List.length_cons]

/-- A directory with a path so long that the paths of its entries are cut to its own. -/
def Cut (fs : FileSystem) (path : CString) : Prop :=
  path.bytes.length = pathMax - 1 ∧ below fs path ≠ []

theorem entryPath_of_cut {name : CString} (hlen : path.bytes.length = pathMax - 1) :
    entryPath path name = path := by
  obtain ⟨bytes, noNul⟩ := path
  have hbytes : (bytes ++ 47 :: name.bytes).take (pathMax - 1) = bytes := List.take_left' hlen
  simp only [entryPath, hbytes]

/-- What is left of the buffer, and one more for an argument that is longer than it. -/
def room (path : CString) : ℕ := if path.bytes.length < pathMax then pathMax - 1 - path.bytes.length else pathMax

theorem room_lt (hq : q ∈ below fs p) (hcut : ¬ Cut fs p) : room q < room p := by
  have hne : below fs p ≠ [] := List.ne_nil_of_mem hq
  have hlen : p.bytes.length ≠ pathMax - 1 := fun heq => hcut ⟨heq, hne⟩
  obtain ⟨names, name, -, -, -, rfl⟩ := mem_below.mp hq
  have hentry := length_entryPath p name
  have hmax : pathMax = 4096 := rfl
  rw [room, room]
  split_ifs <;> omega

theorem acc_iff (path : CString) : Acc (fun q p => Child (below fs) p q) path ↔
    ∀ p, Reaches (below fs) path p → ¬ Cut fs p := by
  constructor
  · intro hacc p hp hcut
    obtain ⟨q, hq⟩ := List.exists_mem_of_ne_nil _ hcut.2
    obtain ⟨names, name, -, -, -, heq⟩ := mem_below.mp hq
    rw [entryPath_of_cut hcut.1] at heq
    exact irrefl_of_acc (acc_of_reaches hacc hp) (heq ▸ hq)
  · intro hcut
    induction hroom : room path using Nat.strong_induction_on generalizing path with
    | _ k ih =>
      subst hroom
      refine Acc.intro path fun q hq => ih (room q) ?_ q (fun p hp => hcut p (.head hq hp)) rfl
      exact room_lt hq (hcut path .refl)

/-- The directory `k` with a hidden entry and the file `j`. -/
def oneFile (contents : PlistFile) : FileSystem := fun path =>
  if path = keyK then .directory (some [⟨[46], by decide⟩, keyJ])
  else if path = entryPath keyK keyJ then .file contents
  else .missing

def countFile (_ : CString) (_ : PlistFile) (n : ℕ) : Except Stop ℕ := .ok (n + 1)

/-- The names in the directories that are reached are distinct, have no slash, and fit
into the buffer with the path of their directory. -/
structure Tidy (fs : FileSystem) (path : CString) : Prop where
  distinct : ∀ p names, Reaches (below fs) path p → fs p = .directory (some names) → names.Nodup
  plain : ∀ p names name, Reaches (below fs) path p → fs p = .directory (some names) → name ∈ names →
    visible name = true → 47 ∉ name.bytes
  fits : ∀ p names name, Reaches (below fs) path p → fs p = .directory (some names) → name ∈ names →
    visible name = true → p.bytes.length + (name.bytes.length + 1) < pathMax

/-- The regular file under a path. -/
def fileAt (fs : FileSystem) (path : CString) : Option (CString × PlistFile) :=
  match fs path with
  | .file contents => some (path, contents)
  | _ => none

theorem fileAt_eq_some {contents : PlistFile} :
    fileAt fs p = some (q, contents) ↔ p = q ∧ fs p = .file contents := by
  rw [fileAt]
  cases fs p with
  | file c => simp
  | missing => simp
  | directory names => simp
  | other => simp

theorem foldlM_visit (l : List CString) (s : σ) : l.foldlM (fun s p => visit fs loadfile p s) s =
    (l.filterMap (fileAt fs)).foldlM (fun s f => loadfile f.1 f.2 s) s := by
  induction l generalizing s with
  | nil => rfl
  | cons p l ih =>
    rw [List.foldlM_cons, List.filterMap_cons, visit, fileAt]
    cases fs p with
    | file contents =>
      dsimp only
      rw [List.foldlM_cons]
      exact bind_congr ih
    | missing => exact ih s
    | directory names => exact ih s
    | other => exact ih s

theorem sublist_files (l : List CString) : ((l.filterMap (fileAt fs)).map Prod.fst).Sublist l := by
  have h := sublist_map_filterMap (f := fileAt fs) (fun p f hf => (fileAt_eq_some.mp hf).1.symm) l
  rwa [List.map_id'] at h

theorem bytes_entryPath {name : CString} (hfits : p.bytes.length + (name.bytes.length + 1) < pathMax) :
    (entryPath p name).bytes = p.bytes ++ 47 :: name.bytes := by
  have hlen : (p.bytes ++ 47 :: name.bytes).length ≤ pathMax - 1 := by
    rw [List.length_append, List.length_cons]
    omega
  exact List.take_of_length_le hlen

/-- A path that is reached goes on behind a slash. -/
def Extends (bytes rest : List UInt8) : Prop := rest = bytes ∨ ∃ more, rest = bytes ++ 47 :: more

theorem Tidy.extends (ht : Tidy fs path) (hp : Reaches (below fs) path p) (hq : Reaches (below fs) p q) :
    Extends p.bytes q.bytes := by
  induction hq with
  | refl => exact .inl rfl
  | @tail q r hq hr ih =>
    obtain ⟨names, name, hdir, hname, hvisible, rfl⟩ := mem_below.mp hr
    rw [bytes_entryPath (ht.fits q names name (hp.trans hq) hdir hname hvisible)]
    rcases ih with heq | ⟨more, heq⟩
    · exact .inr ⟨name.bytes, by rw [heq]⟩
    · exact .inr ⟨more ++ 47 :: name.bytes, by rw [heq, List.append_assoc, List.cons_append]⟩

theorem takeWhile_of_extends {bytes rest : List UInt8} (hplain : 47 ∉ bytes) (h : Extends bytes rest) :
    rest.takeWhile (· ≠ 47) = bytes := by
  have hall : ∀ b ∈ bytes, decide (b ≠ 47) = true :=
    fun b hb => decide_eq_true fun heq => hplain (heq ▸ hb)
  rcases h with rfl | ⟨more, rfl⟩
  · exact List.takeWhile_eq_self_iff.mpr hall
  · rw [List.takeWhile_append_of_pos hall, List.takeWhile_cons_of_neg (by decide), List.append_nil]

/-- Nothing is below two entries of a directory. -/
theorem Tidy.branches (ht : Tidy fs path) (hp : Reaches (below fs) path p) : Branches (below fs) p := by
  rw [Branches, below]
  split
  · rename_i names hdir
    rw [List.pairwise_map]
    refine ((ht.distinct p names hp hdir).filter visible).imp_of_mem fun {a b} ha hb hne q hqa hqb => hne ?_
    obtain ⟨ha, hva⟩ := List.mem_filter.mp ha
    obtain ⟨hb, hvb⟩ := List.mem_filter.mp hb
    have hbelow : ∀ name ∈ names, visible name = true → Reaches (below fs) (entryPath p name) q →
        ∃ rest, q.bytes = p.bytes ++ 47 :: rest ∧ rest.takeWhile (· ≠ 47) = name.bytes := by
      intro name hname hvisible hq
      have hchild : Child (below fs) p (entryPath p name) := mem_below.mpr ⟨names, name, hdir, hname, hvisible, rfl⟩
      have hext := ht.extends (hp.tail hchild) hq
      rw [bytes_entryPath (ht.fits p names name hp hdir hname hvisible)] at hext
      have hplain := ht.plain p names name hp hdir hname hvisible
      rcases hext with heq | ⟨more, heq⟩
      · exact ⟨name.bytes, heq, takeWhile_of_extends hplain (.inl rfl)⟩
      · refine ⟨name.bytes ++ 47 :: more, ?_, takeWhile_of_extends hplain (.inr ⟨more, rfl⟩)⟩
        rw [heq, List.append_assoc, List.cons_append]
    obtain ⟨rest, hrest, htake⟩ := hbelow a ha hva hqa
    obtain ⟨rest', hrest', htake'⟩ := hbelow b hb hvb hqb
    have hsame : rest = rest' := (List.cons.inj (List.append_cancel_left (hrest.symm.trans hrest'))).2
    rw [hsame, htake'] at htake
    obtain ⟨bytes, noNul⟩ := a
    obtain ⟨bytes', noNul'⟩ := b
    dsimp only at htake
    subst htake
    rfl
  · exact List.Pairwise.nil

theorem Tidy.not_cut (ht : Tidy fs path) (hp : Reaches (below fs) path p) : ¬ Cut fs p := by
  intro hcut
  obtain ⟨q, hq⟩ := List.exists_mem_of_ne_nil _ hcut.2
  obtain ⟨names, name, hdir, hname, hvisible, -⟩ := mem_below.mp hq
  have hfits := ht.fits p names name hp hdir hname hvisible
  have hlen := hcut.1
  omega

/-- Every regular file below the argument that has no hidden name on the way to it is
loaded exactly once, and the files are loaded one after another. -/
theorem loaded_once (ht : Tidy fs path) : ∃ (n : ℕ) (files : List (CString × PlistFile)),
    (files.map Prod.fst).Nodup ∧
    (∀ p contents, (p, contents) ∈ files ↔ Reaches (below fs) path p ∧ fs p = .file contents) ∧
    ∀ m ≥ n, ∀ (loadfile : CString → PlistFile → σ → Except ε σ) (s : σ), load fs loadfile m path s =
      (files.foldlM (fun s f => loadfile f.1 f.2 s) s).mapError .error := by
  have hacc := (acc_iff path).mpr fun p hp => ht.not_cut hp
  obtain ⟨n, l, hpre⟩ := (exists_preorder_iff path).mpr hacc
  refine ⟨n, l.filterMap (fileAt fs), ?_, fun p contents => ?_, fun m hm loadfile s => ?_⟩
  · exact (nodup_preorder hpre fun p hp => ht.branches hp).sublist (sublist_files l)
  · rw [List.mem_filterMap]
    constructor
    · intro h
      obtain ⟨q, hq, hfile⟩ := h
      obtain ⟨rfl, hfound⟩ := fileAt_eq_some.mp hfile
      exact ⟨(mem_preorder_iff hpre).mp hq, hfound⟩
    · intro h
      exact ⟨p, (mem_preorder_iff hpre).mpr h.1, fileAt_eq_some.mpr ⟨rfl, h.2⟩⟩
  · rw [load_eq_walk, walk_eq_foldlM _ (preorder_mono hpre hm), foldlM_visit]

theorem tidy_oneFile (contents : PlistFile) : Tidy (oneFile contents) keyK := by
  have hdir : ∀ p names, oneFile contents p = .directory (some names) →
      p = keyK ∧ names = [⟨[46], by decide⟩, keyJ] := by
    intro p names h
    rw [oneFile] at h
    split_ifs at h with hp
    cases h
    exact ⟨hp, rfl⟩
  constructor
  · intro p names _ h
    obtain ⟨-, rfl⟩ := hdir p names h
    decide
  · intro p names name _ h hname hvisible
    obtain ⟨-, rfl⟩ := hdir p names h
    rcases List.mem_pair.mp hname with rfl | rfl
    · cases hvisible
    · decide
  · intro p names name _ h hname hvisible
    obtain ⟨rfl, rfl⟩ := hdir p names h
    rcases List.mem_pair.mp hname with rfl | rfl
    · cases hvisible
    · decide

end Walk

end OpenXPC.Loading
