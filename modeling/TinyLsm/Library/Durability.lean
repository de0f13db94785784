import TinyLsm.Library.FileSystem
import Mathlib.Logic.Function.Basic

/-!
# Power loss

What a loss of power may leave of the files.  An `fsync` of a file makes its contents
durable, and an `fsync` of the directory makes the entries of all files durable.  Until
then, for every file independently of the others, what is found may be contents from before
the last changes, and the entry from before its last changes: no file where one was created
or renamed to, or still a file where one was removed.

`Pending` keeps for a file what may be found instead of what a running program sees, and
`Syscall.pend` how a call changes this.
-/

namespace FileSystem

variable {ν β : Type*}

/-- What may be found of a file instead of what a running program sees. -/
structure Pending (β : Type*) where
  /-- The contents since the last `fsync` of the file. -/
  contents : List (List β)
  /-- What the directory has shown since its last `fsync`, `none` for no file. -/
  entries : List (Option (List β))

namespace Pending

/-- Nothing but what is seen is found. -/
def settled : Pending β :=
  ⟨[], []⟩

/-- What may be found instead of what is seen. -/
def stale (p : Pending β) : List (Option (List β)) :=
  p.contents.map some ++ p.entries

/-- What may be found. -/
def outcomes (p : Pending β) (seen : Option (List β)) : List (Option (List β)) :=
  seen :: p.stale

/-- The file has contents that it did not have before. -/
def changed (p : Pending β) (before : List (List β)) : Pending β :=
  ⟨before ++ p.contents, p.entries⟩

/-- The directory shows another file, or none, under the name. -/
def relinked (p : Pending β) (seen : Option (List β)) (contents : List (List β)) : Pending β :=
  ⟨contents, p.outcomes seen⟩

@[simp]
theorem stale_settled :
  (settled : Pending β).stale = []
  := rfl

@[simp]
theorem stale_changed (p : Pending β) (before : List (List β)) :
  (p.changed before).stale = before.map some ++ p.stale
  := by
  simp [changed, stale]

@[simp]
theorem stale_relinked (p : Pending β) (seen : Option (List β)) (contents : List (List β)) :
  (p.relinked seen contents).stale = contents.map some ++ p.outcomes seen
  := rfl

end Pending

variable [LinearOrder ν]

/-- These files may be left by a loss of power. -/
def Survives (p : ν → Pending β) (seen left : Disk ν β) : Prop :=
  ∀ file, left.find? file ∈ (p file).outcomes (seen.find? file)

namespace Syscall

/-- The contents a file goes through while data is appended to it. -/
def appendSteps (c data : List β) : List (List β) :=
  (List.range data.length).map (fun k => c ++ data.take k)

/-- The change of a file's contents by a call. -/
def changing (file : ν) (before : List β → List (List β)) (d : Disk ν β)
    (p : ν → Pending β) : ν → Pending β :=
  match d.find? file with
  | none => p
  | some c => Function.update p file ((p file).changed (before c))

/-- What a call does to what may be found, where `d` is what is seen before the call. -/
def pend (call : Syscall ν β) (d : Disk ν β) (p : ν → Pending β) : ν → Pending β :=
  match call with
  | create file =>
      match d.find? file with
      | none => Function.update p file ((p file).relinked none [])
      | some _ => p
  | createTrunc file =>
      match d.find? file with
      | none => Function.update p file ((p file).relinked none [])
      | some c => Function.update p file ((p file).changed [c])
  | append file data => changing file (fun c => appendSteps c data) d p
  | ftruncate file _ => changing file (fun c => [c]) d p
  | fsync file => Function.update p file ⟨[], (p file).entries⟩
  | rename source target =>
      match d.find? source with
      | none => p
      | some c =>
          Function.update (Function.update p source ((p source).relinked (some c) [])) target
            ((p target).relinked (d.find? target) (p source).contents)
  | unlink file => Function.update p file ((p file).relinked (d.find? file) [])
  | syncDir => fun file => ⟨(p file).contents, []⟩

/-- What a step that makes at most one call does to what may be found. -/
def pendOption (call : Option (Syscall ν β)) (d : Disk ν β) (p : ν → Pending β) :
    ν → Pending β :=
  match call with
  | none => p
  | some call => call.pend d p

@[simp]
theorem pendOption_none (d : Disk ν β) (p : ν → Pending β) :
  pendOption none d p = p
  := rfl

@[simp]
theorem pendOption_some (call : Syscall ν β) (d : Disk ν β) (p : ν → Pending β) :
  pendOption (some call) d p = call.pend d p
  := rfl

theorem changing_of_ne {file g : ν} (h : g ≠ file) (before : List β → List (List β))
    (d : Disk ν β) (p : ν → Pending β) :
  changing file before d p g = p g
  := by
  rw [changing]
  cases d.find? file with
  | none => rfl
  | some c => exact Function.update_of_ne h _ _

/-- A call that is not the `fsync` of the directory leaves the files it does not name, except
that the `fsync` of a file settles its contents. -/
theorem pend_of_notMem {call : Syscall ν β} {d : Disk ν β} {p : ν → Pending β} {g : ν}
    (h : g ∉ call.files) (hsync : call ≠ fsync g) (hdir : call ≠ syncDir) :
  call.pend d p g = p g
  := by
  cases call with
  | create file =>
      simp only [files, List.mem_singleton] at h
      rw [pend]
      cases d.find? file with
      | none => exact Function.update_of_ne h _ _
      | some c => rfl
  | createTrunc file =>
      simp only [files, List.mem_singleton] at h
      rw [pend]
      cases d.find? file with
      | none => exact Function.update_of_ne h _ _
      | some c => exact Function.update_of_ne h _ _
  | append file data =>
      simp only [files, List.mem_singleton] at h
      exact changing_of_ne h _ _ _
  | ftruncate file length =>
      simp only [files, List.mem_singleton] at h
      exact changing_of_ne h _ _ _
  | fsync file =>
      have hne : g ≠ file := by
        rintro rfl
        exact hsync rfl
      rw [pend, Function.update_of_ne hne]
  | rename source target =>
      simp only [files, List.mem_cons, List.not_mem_nil, or_false, not_or] at h
      rw [pend]
      cases d.find? source with
      | none => rfl
      | some c => exact (Function.update_of_ne h.2 _ _).trans (Function.update_of_ne h.1 _ _)
  | unlink file =>
      simp only [files, List.mem_singleton] at h
      rw [pend, Function.update_of_ne h]
  | syncDir => exact absurd rfl hdir

/-! ### What a call adds -/

section Stale

variable {d : Disk ν β} {p : ν → Pending β} {file : ν} {c : List β}

theorem mem_stale_create {o : Option (List β)}
    (h : o ∈ ((create file).pend d p file).stale) :
  o = d.find? file ∨ o ∈ (p file).stale
  := by
  rw [pend] at h
  cases hd : d.find? file with
  | none =>
      simp only [hd, Function.update_self, Pending.stale_relinked, List.map_nil, List.nil_append,
        Pending.outcomes, List.mem_cons] at h
      exact h
  | some c =>
      simp only [hd] at h
      exact Or.inr h

theorem stale_append (hd : d.find? file = some c) (data : List β) :
  ((append file data).pend d p file).stale = (appendSteps c data).map some ++ (p file).stale
  := by
  simp [pend, changing, hd]

theorem stale_ftruncate (hd : d.find? file = some c) (length : ℕ) :
  ((ftruncate file length).pend d p file).stale = some c :: (p file).stale
  := by
  simp [pend, changing, hd]

@[simp]
theorem pend_fsync :
  (fsync file).pend d p file = ⟨[], (p file).entries⟩
  := by
  simp [pend]

theorem stale_fsync :
  ((fsync file).pend d p file).stale = (p file).entries
  := by
  simp [pend, Pending.stale]

theorem pend_rename_target {source target : ν} (hd : d.find? source = some c) :
  (rename source target).pend d p target
    = (p target).relinked (d.find? target) (p source).contents
  := by
  simp [pend, hd]

theorem stale_syncDir {o : Option (List β)} (h : o ∈ (syncDir.pend d p file).stale) :
  o ∈ (p file).stale
  := by
  simp only [pend, Pending.stale, List.append_nil] at h
  exact List.mem_append_left _ h

end Stale

end Syscall

/-! ### Without an fsync of the directory -/

/-- The file may not be found. -/
def MayVanish (p : ν → Pending β) (d : Disk ν β) (file : ν) : Prop :=
  d.find? file = none ∨ none ∈ (p file).entries

theorem MayVanish.mem_outcomes {p : ν → Pending β} {d : Disk ν β} {file : ν}
    (h : MayVanish p d file) :
  none ∈ (p file).outcomes (d.find? file)
  := by
  rcases h with hnone | hentries
  · rw [hnone]
    exact List.mem_cons_self
  · apply List.mem_cons_of_mem
    exact List.mem_append_right _ hentries

theorem MayVanish.mem_relinked {p : ν → Pending β} {d : Disk ν β} {file : ν}
    (h : MayVanish p d file) (contents : List (List β)) :
  none ∈ ((p file).relinked (d.find? file) contents).entries
  := h.mem_outcomes

/-- As long as the directory is not synced, a file that may not be found stays so. -/
theorem MayVanish.exec {call : Syscall ν β} {p : ν → Pending β} {d : Disk ν β} {file : ν}
    (hdir : call ≠ .syncDir) (h : MayVanish p d file) :
  MayVanish (call.pend d p) (call.exec d) file
  := by
  by_cases hmem : file ∈ call.files
  · cases call with
    | create file' =>
        obtain rfl := List.mem_singleton.mp hmem
        right
        rw [Syscall.pend]
        cases hd : d.find? file with
        | none => simp [Pending.relinked, Pending.outcomes]
        | some c => simpa [MayVanish, hd] using h
    | createTrunc file' =>
        obtain rfl := List.mem_singleton.mp hmem
        right
        rw [Syscall.pend]
        cases hd : d.find? file with
        | none => simp [Pending.relinked, Pending.outcomes]
        | some c =>
            have hentries : none ∈ (p file).entries := by simpa [MayVanish, hd] using h
            simpa [Pending.changed] using hentries
    | append file' data =>
        obtain rfl := List.mem_singleton.mp hmem
        rw [MayVanish, Syscall.pend, Syscall.changing, Syscall.exec, find?_modify, if_pos rfl]
        cases hd : d.find? file with
        | none => exact Or.inl rfl
        | some c =>
            right
            have hentries : none ∈ (p file).entries := by simpa [MayVanish, hd] using h
            simpa [Pending.changed] using hentries
    | ftruncate file' length =>
        obtain rfl := List.mem_singleton.mp hmem
        rw [MayVanish, Syscall.pend, Syscall.changing, Syscall.exec, find?_modify, if_pos rfl]
        cases hd : d.find? file with
        | none => exact Or.inl rfl
        | some c =>
            right
            have hentries : none ∈ (p file).entries := by simpa [MayVanish, hd] using h
            simpa [Pending.changed] using hentries
    | fsync file' => simp [Syscall.files] at hmem
    | rename source target =>
        simp only [Syscall.files, List.mem_cons, List.not_mem_nil, or_false] at hmem
        rw [MayVanish, Syscall.pend, Syscall.exec]
        cases hd : d.find? source with
        | none => exact h
        | some c =>
            simp only
            by_cases htarget : file = target
            · subst htarget
              right
              rw [Function.update_self]
              exact h.mem_relinked _
            · left
              obtain rfl : file = source := by
                rcases hmem with rfl | rfl
                · rfl
                · exact absurd rfl htarget
              simp [Ne.symm htarget]
    | unlink file' =>
        obtain rfl := List.mem_singleton.mp hmem
        left
        simp [Syscall.exec]
    | syncDir => exact absurd rfl hdir
  · rw [MayVanish, Syscall.find?_exec_of_notMem hmem]
    rcases h with hnone | hentries
    · exact Or.inl hnone
    · right
      by_cases hsync : call = .fsync file
      · subst hsync
        simpa [Syscall.pend] using hentries
      · rw [Syscall.pend_of_notMem hmem hsync hdir]
        exact hentries

end FileSystem
