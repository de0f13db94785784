import TinyLsm.Library.OrderedMap

/-!
# System calls on files

The system calls by which a program writes files, and what each does to the files a running
program sees.  A process that is killed leaves the files as the calls it completed have
left them.
-/

namespace FileSystem

variable {ν β : Type*} [LinearOrder ν]

/-- The calls that change files.  A `write` appends, and may deliver any part of the data
it was given: the part delivered is what the call holds. -/
inductive Syscall (ν β : Type*) where
  /-- `open` with `O_CREAT`. -/
  | create (file : ν)
  /-- `open` with `O_CREAT | O_TRUNC`. -/
  | createTrunc (file : ν)
  | append (file : ν) (data : List β)
  | ftruncate (file : ν) (length : ℕ)
  | fsync (file : ν)
  | rename (source target : ν)
  | unlink (file : ν)
  /-- `fsync` on the directory. -/
  | syncDir
deriving DecidableEq

/-- The files of a directory with their contents. -/
abbrev Disk (ν β : Type*) [LinearOrder ν] := OrderedMap ν (List β)

/-- Replace the contents of a file that exists. -/
def modify (d : Disk ν β) (file : ν) (f : List β → List β) : Disk ν β :=
  match d.find? file with
  | none => d
  | some c => d.insert file (f c)

namespace Syscall

/-- The effect of a call. -/
def exec : Syscall ν β → Disk ν β → Disk ν β
  | create file, d =>
      match d.find? file with
      | none => d.insert file []
      | some _ => d
  | createTrunc file, d => d.insert file []
  | append file data, d => modify d file (fun c => c ++ data)
  | ftruncate file length, d => modify d file (fun c => c.take length)
  | fsync _, d => d
  | rename source target, d =>
      match d.find? source with
      | none => d
      | some c => (d.erase source).insert target c
  | unlink file, d => d.erase file
  | syncDir, d => d

/-- The effect of a step that makes at most one call. -/
def execOption (c : Option (Syscall ν β)) (d : Disk ν β) : Disk ν β :=
  match c with
  | none => d
  | some c => c.exec d

@[simp]
theorem execOption_none (d : Disk ν β) :
  execOption none d = d
  := rfl

@[simp]
theorem execOption_some (c : Syscall ν β) (d : Disk ν β) :
  execOption (some c) d = c.exec d
  := rfl

/-- The files whose contents or existence a call may change. -/
def files : Syscall ν β → List ν
  | create file => [file]
  | createTrunc file => [file]
  | append file _ => [file]
  | ftruncate file _ => [file]
  | fsync _ => []
  | rename source target => [source, target]
  | unlink file => [file]
  | syncDir => []

end Syscall

@[simp]
theorem find?_modify (d : Disk ν β) (file : ν) (f : List β → List β) (g : ν) :
  (modify d file f).find? g = if file = g then (d.find? g).map f else d.find? g
  := by
  rw [modify]
  split
  · split_ifs with h
    · simp_all
    · rfl
  · split_ifs with h
    · simp_all
    · simp [h]

namespace Syscall

/-- An opened file exists afterwards, with the contents it had. -/
theorem find?_create (d : Disk ν β) (file : ν) :
  ((create file).exec d).find? file = some ((d.find? file).getD [])
  := by
  rw [exec]
  cases h : d.find? file with
  | none => simp
  | some c => simp [h]

/-- A call leaves the files it does not name alone. -/
theorem find?_exec_of_notMem {c : Syscall ν β} {d : Disk ν β} {g : ν} (h : g ∉ c.files) :
  (c.exec d).find? g = d.find? g
  := by
  cases c with
  | create file =>
      simp only [files, List.mem_singleton] at h
      rw [exec]
      split
      · simp [Ne.symm h]
      · rfl
  | createTrunc file =>
      simp only [files, List.mem_singleton] at h
      simp [exec, Ne.symm h]
  | append file data =>
      simp only [files, List.mem_singleton] at h
      simp [exec, Ne.symm h]
  | ftruncate file length =>
      simp only [files, List.mem_singleton] at h
      simp [exec, Ne.symm h]
  | fsync file => rfl
  | rename source target =>
      simp only [files, List.mem_cons, List.not_mem_nil, or_false, not_or] at h
      rw [exec]
      split
      · rfl
      · simp [Ne.symm h.1, Ne.symm h.2]
  | unlink file =>
      simp only [files, List.mem_singleton] at h
      simp [exec, Ne.symm h]
  | syncDir => rfl

/-! ### Directories that are related file by file -/

/-- The call keeps a relation between the contents of the files it names. -/
def Respects (R : ν → List β → List β → Prop) : Syscall ν β → Prop
  | create file => R file [] []
  | createTrunc file => R file [] []
  | append file data => ∀ c' c, R file c' c → R file (c' ++ data) (c ++ data)
  | ftruncate file length => ∀ c' c, R file c' c → R file (c'.take length) (c.take length)
  | rename source target => ∀ c' c, R source c' c → R target c' c
  | _ => True

theorem related_modify {R : ν → List β → List β → Prop} {d' d : Disk ν β}
    (h : OrderedMap.Related R d' d) {file : ν} {f : List β → List β}
    (hf : ∀ c' c, R file c' c → R file (f c') (f c)) :
  OrderedMap.Related R (modify d' file f) (modify d file f)
  := by
  intro g
  rw [find?_modify, find?_modify]
  have hg := h g
  generalize d'.find? g = contents' at hg
  generalize d.find? g = contents at hg
  split_ifs with hfile
  · subst hfile
    cases hg with
    | none => exact .none
    | some hc => exact .some (hf _ _ hc)
  · exact hg

/-- Such a call leads from related directories to related directories. -/
theorem Respects.exec {R : ν → List β → List β → Prop} {c : Syscall ν β} (hc : c.Respects R)
    {d' d : Disk ν β} (h : OrderedMap.Related R d' d) :
  OrderedMap.Related R (c.exec d') (c.exec d)
  := by
  cases c with
  | create file =>
      have hfile := h file
      simp only [Syscall.exec]
      generalize d'.find? file = contents' at hfile
      generalize d.find? file = contents at hfile
      cases hfile with
      | none => exact h.insert hc
      | some _ => exact h
  | createTrunc file => exact h.insert hc
  | append file data => exact related_modify h hc
  | ftruncate file length => exact related_modify h hc
  | fsync file => exact h
  | rename source target =>
      have hsource := h source
      simp only [Syscall.exec]
      generalize d'.find? source = contents' at hsource
      generalize d.find? source = contents at hsource
      cases hsource with
      | none => exact h
      | some hcontents => exact (h.erase source).insert (hc _ _ hcontents)
  | unlink file => exact h.erase file
  | syncDir => exact h

end Syscall

end FileSystem
