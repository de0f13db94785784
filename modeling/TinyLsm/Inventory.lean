import TinyLsm.CompactionCrash

/-!
# The files of a directory

Which files there are while a process runs: the log, the tables on disk, and a temporary file for each
table that is being written.  The constructor removes what a killed process has left, so between calls,
with no compaction going on, the directory has the log and one file for each table listed and nothing
else (`directory_inventory`).
-/

namespace TinyLsm

open FileSystem Transition

/-- The temporary file exists. -/
def FileWrite.begun : FileWrite → Bool
  | creating _ => false
  | _ => true

/-- The tables that are written to a temporary file. -/
def Writer.temporaries (w : Writer) (next : ℕ) : List ℕ :=
  match w with
  | flushing _ file => if file.begun then [next] else []
  | _ => []

def Compactor.temporaries : Compactor → List ℕ
  | writing _ _ number file => if file.begun then [number] else []
  | _ => []

namespace Process

def temporaries (p : Process) : List ℕ :=
  p.writer.temporaries p.db.nextSstableNumber ++ p.compactor.temporaries

/-- The files of the directory. -/
def inventory (p : Process) : List FileName :=
  .walLog :: (p.generations.map (fun r => FileName.sst r.path) ++ p.temporaries.map FileName.tmp)

end Process

/-! ### Temporary files -/

/-- The temporary files are among those of these tables. -/
def TmpWithin (disk : DbDisk) (numbers : List ℕ) : Prop :=
  ∀ n, (disk.find? (.tmp n)).isSome → n ∈ numbers

section TmpWithin

variable {disk : DbDisk} {numbers numbers' : List ℕ} {c : DbSyscall}

theorem TmpWithin.mono (h : TmpWithin disk numbers) (hsub : numbers ⊆ numbers') :
  TmpWithin disk numbers'
  := fun n hn => hsub (h n hn)

/-- A call on other files. -/
theorem TmpWithin.exec (h : TmpWithin disk numbers) (hc : ∀ n, FileName.tmp n ∉ c.files) :
  TmpWithin (c.exec disk) numbers
  := by
  intro n hn
  rw [Syscall.find?_exec_of_notMem (hc n)] at hn
  exact h n hn

/-- A call on one temporary file. -/
theorem TmpWithin.exec_tmp {m : ℕ} (h : TmpWithin disk numbers)
    (hc : ∀ n, n ≠ m → FileName.tmp n ∉ c.files) (hsub : ∀ n ∈ numbers, n ≠ m → n ∈ numbers')
    (hm : ((c.exec disk).find? (.tmp m)).isSome → m ∈ numbers') :
  TmpWithin (c.exec disk) numbers'
  := by
  intro n hn
  by_cases hne : n = m
  · subst hne
    exact hm hn
  · rw [Syscall.find?_exec_of_notMem (hc n hne)] at hn
    exact hsub n (h n hn) hne

/-- A file that is renamed is gone. -/
theorem find?_rename_tmp (disk : DbDisk) (n : ℕ) :
  ((Syscall.rename (.tmp n) (.sst n)).exec disk).find? (.tmp n) = none
  := by
  simp only [Syscall.exec]
  cases h : disk.find? (.tmp n) with
  | none => exact h
  | some contents => simp

theorem TmpWithin.rename {m : ℕ} (h : TmpWithin disk numbers)
    (hsub : ∀ n ∈ numbers, n ≠ m → n ∈ numbers') :
  TmpWithin ((Syscall.rename (.tmp m) (.sst m)).exec disk) numbers'
  := by
  apply h.exec_tmp (m := m) _ hsub
  · rw [find?_rename_tmp]
    simp
  · intro n hne
    simpa [Syscall.files] using hne

/-- A step of `WriteSSTable` is about its temporary file, which exists from then on. -/
theorem TmpWithin.write {m : ℕ} {file file' : FileWrite} (h : TmpWithin disk numbers)
    (hstep : file.Step m c file') (hsub : ∀ n ∈ numbers, n ≠ m → n ∈ numbers')
    (hm : file'.begun → m ∈ numbers') :
  TmpWithin (c.exec disk) numbers'
  := by
  apply h.exec_tmp (m := m) _ hsub
  · intro _
    apply hm
    cases hstep with
    | _ => rfl
  · intro n hne
    cases hstep with
    | create hw => simpa [Syscall.files] using hne
    | append hrest => simpa [Syscall.files] using hne
    | sync => simp [Syscall.files]

end TmpWithin

/-! ### Steps -/

/-- There are no temporary files but those being written, and those the constructor is still to
remove. -/
def Status.Tidy (status : Status) (disk : DbDisk) : Prop :=
  match status with
  | opening (.cleaning _ _ leftover) => TmpWithin disk leftover
  | opening _ => TmpWithin disk []
  | running p => TmpWithin disk p.temporaries
  | _ => True

theorem tmpWithin_tmpNumbers (disk : DbDisk) :
  TmpWithin disk (tmpNumbers disk)
  := by
  intro n hn
  obtain ⟨contents, hfind⟩ := Option.isSome_iff_exists.mp hn
  exact List.mem_filterMap.mpr ⟨_, OrderedMap.mem_entries.mpr hfind, rfl⟩

namespace Process

variable {p : Process} {disk disk' : DbDisk} {c : Option DbSyscall} {status : Status}
  {ended : List Call}

theorem WriterStep.tidy (h : TmpWithin disk p.temporaries)
    (hdisk : disk' = Syscall.execOption c disk) (hstep : p.WriterStep disk' c status ended) :
  status.Tidy disk'
  := by
  subst hdisk
  have hkeep : ∀ {q : Process}, p.writer.temporaries p.db.nextSstableNumber = [] →
      q.compactor = p.compactor → p.temporaries ⊆ q.temporaries := by
    intro q hnone hcompactor
    rw [temporaries, hnone, List.nil_append, temporaries, hcompactor]
    exact List.subset_append_right _ _
  have hother : ∀ {q : Process}, q.compactor = p.compactor → ∀ n ∈ p.temporaries,
      n ≠ p.db.nextSstableNumber → n ∈ q.temporaries := by
    intro q hcompactor n hn hne
    rw [temporaries, hcompactor]
    rcases List.mem_append.mp hn with hn | hn
    · unfold Writer.temporaries at hn
      split at hn
      · split_ifs at hn
        · exact absurd (List.mem_singleton.mp hn) hne
        · cases hn
      · cases hn
    · exact List.mem_append_right _ hn
  cases hstep with
  | append hw hne =>
      apply TmpWithin.mono (h.exec (by simp [Syscall.files]))
      exact hkeep (by rw [hw]; rfl) (by rfl)
  | sync hw =>
      apply TmpWithin.mono (h.exec (by simp [Syscall.files]))
      exact hkeep (by rw [hw]; rfl) (by rfl)
  | apply hw hflush => exact h.mono (hkeep (by rw [hw]; rfl) (by rfl))
  | startFlush hw hflush => exact h.mono (hkeep (by rw [hw]; rfl) (by rfl))
  | @write op file file' c hw hfile =>
      apply TmpWithin.write h hfile (hother (by rfl))
      intro hbegun
      simp [temporaries, Writer.temporaries, hbegun]
  | rename hw hopen => exact TmpWithin.rename h (hother (by rfl))
  | reject hw hopen => exact TmpWithin.rename h (hother (by rfl))
  | reset hw =>
      apply TmpWithin.mono (h.exec (by simp [Syscall.files]))
      exact hkeep (by rw [hw]; rfl) (by rfl)

theorem CompactorStep.tidy (h : TmpWithin disk p.temporaries)
    (hdisk : disk' = Syscall.execOption c disk) (hstep : p.CompactorStep disk' c status ended) :
  status.Tidy disk'
  := by
  subst hdisk
  have hkeep : ∀ {q : Process}, p.compactor.temporaries = [] → q.writer = p.writer →
      q.db.nextSstableNumber = p.db.nextSstableNumber → p.temporaries ⊆ q.temporaries := by
    intro q hnone hwriter hnext
    rw [temporaries, hnone, List.append_nil, temporaries, hwriter, hnext]
    exact List.subset_append_left _ _
  have hother : ∀ {q : Process} {m : ℕ}, q.writer = p.writer →
      q.db.nextSstableNumber = p.db.nextSstableNumber → p.compactor.temporaries ⊆ [m] →
      ∀ n ∈ p.temporaries, n ≠ m → n ∈ q.temporaries := by
    intro q m hwriter hnext hcompactor n hn hne
    rw [temporaries, hwriter, hnext]
    rcases List.mem_append.mp hn with hn | hn
    · exact List.mem_append_left _ hn
    · exact absurd (List.mem_singleton.mp (hcompactor hn)) hne
  cases hstep with
  | consume hc hreq => exact h.mono (hkeep (by rw [hc]; rfl) (by rfl) (by rfl))
  | skip hc hw hlen => exact h.mono (hkeep (by rw [hc]; rfl) (by rfl) (by rfl))
  | snapshot hc hw hlen => exact h.mono (hkeep (by rw [hc]; rfl) (by rfl) (by rfl))
  | merge hc hmerge => exact h.mono (hkeep (by rw [hc]; rfl) (by rfl) (by rfl))
  | mergeFail hc hmerge => trivial
  | allocate hc hw =>
      -- The counter moves, but no flush is going on.
      apply h.mono
      simp [temporaries, hw, hc, Writer.temporaries, Compactor.temporaries]
  | @write toCompact merged n file file' c hc hfile =>
      apply TmpWithin.write h hfile
      · apply hother (by rfl) (by rfl)
        rw [hc, Compactor.temporaries]
        split_ifs
        · exact List.Subset.refl _
        · exact List.nil_subset _
      · intro hbegun
        simp [temporaries, Compactor.temporaries, hbegun]
  | rename hc hopen =>
      apply TmpWithin.rename h
      apply hother (by rfl) (by rfl)
      rw [hc]
      exact List.Subset.refl _
  | reject hc hopen => trivial
  | swap hc hw => exact h.mono (hkeep (by rw [hc]; rfl) (by rfl) (by rfl))
  | unlink hc =>
      apply TmpWithin.mono (h.exec (by simp [Syscall.files]))
      exact hkeep (by rw [hc]; rfl) (by rfl) (by rfl)
  | deleted hc => exact h.mono (hkeep (by rw [hc]; rfl) (by rfl) (by rfl))
  | finish hc => exact h.mono (hkeep (by rw [hc]; rfl) (by rfl) (by rfl))

end Process

/-- The leftover files go one by one, in the order of the listing. -/
theorem Opener.Step.tidy {o : Opener} {disk disk' : DbDisk} {c : Option DbSyscall} {status : Status}
    {ended : List Call} (h : (Status.opening o).Tidy disk)
    (hdisk : disk' = Syscall.execOption c disk) (hstep : o.Step disk' c status ended) :
  status.Tidy disk'
  := by
  subst hdisk
  cases hstep with
  | @clean thr trig leftover choice n hn =>
      apply TmpWithin.exec_tmp (m := n) h
      · intro m hne
        simpa [Syscall.files] using hne
      · intro m hm hne
        obtain ⟨i, hi⟩ := List.mem_iff_getElem?.mp hm
        refine List.mem_eraseIdx_iff_getElem?.mpr ⟨i, ?_, hi⟩
        rintro rfl
        exact hne (Option.some.inj (hi.symm.trans hn))
      · simp [Syscall.exec]
  | discover hdiscover => exact h
  | reject hdiscover => trivial
  | createLog => exact TmpWithin.exec h (by simp [Syscall.files])
  | replayTorn hlog hlt => exact h
  | replayWhole hlog hle => exact h
  | truncate => exact TmpWithin.exec h (by simp [Syscall.files])

theorem tidy_step {s t : State} {a : Action} (h : s.status.Tidy s.disk) (hstep : step s a = some t)
    (hfail : a.noFailure) :
  t.status.Tidy t.disk
  := by
  obtain ⟨c, ended, hstatus, hdisk, -⟩ := step_cases hstep hfail
  generalize s.status = status at h hstatus
  generalize t.status = status' at hstatus ⊢
  generalize t.disk = disk' at hstatus hdisk ⊢
  cases hstatus with
  | start => exact tmpWithin_tmpNumbers _
  | restart => exact tmpWithin_tmpNumbers _
  | opener hopener => exact hopener.tidy h hdisk
  | killOpener => trivial
  | call hw =>
      subst hdisk
      intro n hn
      have hmem := h n hn
      simp only [Process.temporaries, hw, Writer.temporaries, List.nil_append] at hmem ⊢
      exact hmem
  | writer hwriter => exact hwriter.tidy h hdisk
  | compactor hcompactor => exact hcompactor.tidy h hdisk
  | close hw hc => trivial
  | kill => trivial

/-! ### Runs -/

theorem tidy_of_apart {s : State} (h : Reaches step Apart State.init s) :
  s.status.Tidy s.disk
  := h.invariant (I := fun s => s.status.Tidy s.disk) trivial
    (fun _ _ _ ht hstep hok => tidy_step ht hstep hok.1)

namespace Process

variable {p : Process} {disk : DbDisk}

/-- A temporary file that is being written exists. -/
theorem WellFormed.isSome_tmp (h : p.WellFormed disk) {n : ℕ} (hn : n ∈ p.temporaries) :
  (disk.find? (.tmp n)).isSome
  := by
  have hbegun : ∀ {file : FileWrite} {entries : EntryMap} {m : ℕ}, file.Holds disk m entries →
      n ∈ (if file.begun then [m] else []) → (disk.find? (.tmp n)).isSome := by
    intro file entries m hholds hmem
    split_ifs at hmem with hfile
    · obtain rfl := List.mem_singleton.mp hmem
      cases file with
      | creating es => cases hfile
      | writing rest =>
          obtain ⟨written, hfind, -⟩ := hholds
          rw [hfind]
          rfl
      | synced =>
          obtain ⟨contents, hfind, -⟩ := hholds
          rw [hfind]
          rfl
    · cases hmem
  rcases List.mem_append.mp hn with hn | hn
  · have hwriter := h.writer
    cases hw : p.writer with
    | flushing op file =>
        rw [hw] at hwriter hn
        exact hbegun hwriter hn
    | _ =>
        rw [hw] at hn
        cases hn
  · have hcompactor := h.compactor
    cases hc : p.compactor with
    | writing toCompact merged m file =>
        rw [hc] at hcompactor hn
        exact hbegun hcompactor.2.2.2.2.2 hn
    | _ =>
        rw [hc] at hn
        cases hn

end Process

/-- In every state of every run, with any number of kills and restarts, the directory of a running process
has the log, the tables on disk and the temporary files that are being written, and no other file; between
calls, with no compaction going on, these are the log and the tables listed. -/
theorem directory_inventory {s : State} (h : Reaches step Apart State.init s) {p : Process}
    (hp : s.status = .running p) :
  (∀ name, (s.disk.find? name).isSome ↔ name ∈ p.inventory)
    ∧ (p.writer = .idle → p.compactor = .waiting →
      p.inventory = .walLog :: p.db.sstables.map (fun r => .sst r.path))
  := by
  have hsound := sound_of_apart h
  have htidy := tidy_of_apart h
  have hwf := hsound.wellFormed
  have hmeans := hsound.means
  rw [hp] at htidy hwf hmeans
  constructor
  · intro name
    cases name with
    | walLog =>
        obtain ⟨absorbed, -, -, log, hfind, -⟩ := hmeans.logged
        simp [hfind, Process.inventory]
    | sst n =>
        have hholds : (s.disk.find? (.sst n)).isSome ↔ ∃ r ∈ p.generations, r.path = n := by
          rw [Option.isSome_iff_exists]
          constructor
          · rintro ⟨contents, hfind⟩
            obtain ⟨r, hr, hpath, -⟩ := (hwf.holds n contents).mp hfind
            exact ⟨r, hr, hpath⟩
          · rintro ⟨r, hr, hpath⟩
            exact ⟨_, (hwf.holds n r.contents).mpr ⟨r, hr, hpath, rfl⟩⟩
        rw [hholds]
        simp [Process.inventory]
    | tmp n =>
        have htmp : (s.disk.find? (.tmp n)).isSome ↔ n ∈ p.temporaries :=
          ⟨htidy n, hwf.isSome_tmp⟩
        rw [htmp]
        simp [Process.inventory]
  · intro hw hc
    simp [Process.inventory, Process.generations, Process.temporaries, hw, hc, Writer.temporaries,
      Compactor.temporaries]

/-- A kill leaves the temporary file of a compaction, which the next constructor removes. -/
def leftoverRun : List Action :=
  mergingRun ++ [.compactor 0, .compactor 0, .compactor 1, .kill, .start 0 2, .opener 0, .opener 0,
    .opener 0, .opener 0]

theorem directory_inventory_leftover :
  ∃ s p, run (guarded step State.apart) State.init leftoverRun = some s ∧ s.status = .running p
    ∧ ∀ name, (s.disk.find? name).isSome
      ↔ name ∈ FileName.walLog :: p.db.sstables.map (fun r => FileName.sst r.path)
  := by
  have hrun : (run (guarded step State.apart) State.init leftoverRun).any
      (fun s => s.runs Process.closable) = true := by
    decide +kernel
  obtain ⟨s, hs, hruns⟩ := exists_of_run hrun
  obtain ⟨p, hp, hclosable⟩ := State.runs_iff.mp hruns
  have hreach : Reaches step Apart State.init s :=
    Reaches.of_run hs (fun _ _ _ ha => flushApart_of_apart ha)
  obtain ⟨hw, hc⟩ := Process.closable_iff.mp hclosable
  obtain ⟨hfiles, hquiet⟩ := directory_inventory hreach hp
  refine ⟨s, p, hs, hp, fun name => ?_⟩
  rw [hfiles, hquiet hw hc]

end TinyLsm
