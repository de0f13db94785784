import TinyLsm.Serving

/-!
# Runs in which calls fail

Whatever calls fail and whenever a process ends, every SSTable of the directory is the file of a
table (`Intact`): a temporary file is renamed only when it is complete.  So a database that is opened
serves some map, and its process goes on to serve that map with the operations that are added to the
log (`Status.serves_of_reaches`).
-/

namespace TinyLsm

open FileSystem Layers Transition

/-! ### Tables -/

/-- Every SSTable of the directory is the file of a table. -/
def Intact (disk : DbDisk) : Prop :=
  ∀ n contents, disk.find? (.sst n) = some contents → ∃ t : Table, contents = t.file

/-- A call that makes no SSTable of anything but the file of a table. -/
inductive KeepsTables (disk : DbDisk) : Option DbSyscall → Prop where
  | none : KeepsTables disk none
  | other {c : DbSyscall} : (∀ n, .sst n ∉ c.files) → KeepsTables disk (some c)
  | rename {n : ℕ} {t : Table} :
      disk.find? (.tmp n) = some t.file →
      KeepsTables disk (some (.rename (.tmp n) (.sst n)))
  | unlink {n : ℕ} : KeepsTables disk (some (.unlink (.sst n)))

theorem Intact.exec {disk : DbDisk} {c : Option DbSyscall} (h : Intact disk)
    (hc : KeepsTables disk c) :
  Intact (Syscall.execOption c disk)
  := by
  intro n contents hfind
  cases hc with
  | none => exact h n contents hfind
  | other hother =>
      rw [Syscall.execOption_some, Syscall.find?_exec_of_notMem (hother n)] at hfind
      exact h n contents hfind
  | @rename n' t htmp =>
      simp only [Syscall.execOption_some, Syscall.exec, htmp, OrderedMap.find?_insert,
        OrderedMap.find?_erase, reduceCtorEq, if_false] at hfind
      split_ifs at hfind with hname
      · exact ⟨t, (Option.some.inj hfind).symm⟩
      · exact h n contents hfind
  | @unlink n' =>
      simp only [Syscall.execOption_some, Syscall.exec, OrderedMap.find?_erase] at hfind
      split_ifs at hfind with hname
      exact h n contents hfind

/-- The readers that are opened on tables are theirs. -/
theorem Intact.valid {disk : DbDisk} (h : Intact disk) {readers : List SSTableReader}
    (hopen : openTables disk = .ok readers) :
  ∀ r ∈ readers, r.Valid
  := by
  intro r hr
  have hload := loaded_of_openTables hopen r hr
  obtain ⟨t, ht⟩ := h _ _ ((holds_of_openTables hopen r.path r.contents).mpr ⟨r, hr, rfl, rfl⟩)
  rw [SSTableReader.Loaded, ht, t.load_file] at hload
  exact ⟨t, (Except.ok.inj hload).symm⟩

/-! ### Calls of the threads -/

theorem FileWrite.Step.keepsTables {file file' : FileWrite} {n : ℕ} {c : DbSyscall} {disk : DbDisk}
    (h : file.Step n c file') :
  KeepsTables disk (some c)
  := by
  apply KeepsTables.other
  cases h with
  | create hw => simp [Syscall.files]
  | append hne => simp [Syscall.files]
  | sync => simp [Syscall.files]

/-- A file that is renamed is complete. -/
theorem FileWrite.Holds.keepsTables {disk : DbDisk} {n : ℕ} {entries : EntryMap}
    (h : FileWrite.synced.Holds disk n entries) (hin : entries.InRange) :
  KeepsTables disk (some (.rename (.tmp n) (.sst n)))
  := by
  obtain ⟨contents, htmp, hwrite⟩ := h
  obtain ⟨t, rfl, -⟩ := load_of_inRange hin hwrite n
  have hfile : contents = t.file := eq_sstableFile hwrite
  subst hfile
  exact .rename htmp

/-- A call of `WriteSSTable` that fails. -/
theorem FileWrite.Holds.keepsTables_failed {file : FileWrite} {disk : DbDisk} {n : ℕ}
    {entries : EntryMap} (h : file.Holds disk n entries) (hin : entries.InRange)
    {c : Option DbSyscall} (hc : c = none ∨ c = (file.move n 0).map Prod.fst) :
  KeepsTables disk c
  := by
  obtain rfl | rfl := hc
  · exact .none
  · cases hmove : file.move n 0 with
    | none => exact .none
    | some move =>
        obtain ⟨call, after⟩ := move
        cases after with
        | some file' => exact (FileWrite.step_of_move hmove).keepsTables
        | none =>
            obtain ⟨rfl, rfl⟩ := FileWrite.eq_synced_of_move hmove
            exact h.keepsTables hin

namespace Process

variable {p : Process} {disk disk' : DbDisk} {c : Option DbSyscall} {status : Status}
  {m : Bytes → Option Bytes} {ended : List Call}

theorem Serving.keepsTables_writerStep (h : p.Serving disk m)
    (hstep : p.WriterStep disk' c status ended) :
  KeepsTables disk c
  := by
  have hwriter := h.writer
  cases hstep with
  | append hw hne => exact .other (by simp [Syscall.files])
  | sync hw => exact .other (by simp [Syscall.files])
  | apply hw hflush => exact .none
  | startFlush hw hflush => exact .none
  | write hw hfile => exact hfile.keepsTables
  | rename hw hopen =>
      rw [hw] at hwriter
      exact FileWrite.Holds.keepsTables hwriter h.inRange
  | reject hw hopen =>
      rw [hw] at hwriter
      exact FileWrite.Holds.keepsTables hwriter h.inRange
  | reset hw => exact .other (by simp [Syscall.files])

theorem Serving.keepsTables_writerFail (h : p.Serving disk m) (hfail : p.WriterFail c status ended) :
  KeepsTables disk c
  := by
  have hwriter := h.writer
  cases hfail with
  | append hw hc =>
      obtain rfl | rfl := hc
      · exact .none
      · exact .other (by simp [Syscall.files])
  | flush hw hc =>
      rw [hw] at hwriter
      exact FileWrite.Holds.keepsTables_failed hwriter h.inRange hc
  | reset hw hc =>
      obtain rfl | rfl := hc
      · exact .none
      · exact .other (by simp [Syscall.files])

theorem Serving.keepsTables_compactorStep (h : p.Serving disk m)
    (hstep : p.CompactorStep disk' c status ended) :
  KeepsTables disk c
  := by
  have hcompactor := h.compactor
  cases hstep with
  | write hc hfile => exact hfile.keepsTables
  | rename hc hopen =>
      rw [hc] at hcompactor
      obtain ⟨-, -, hin, -, -, hholds⟩ := hcompactor
      exact hholds.keepsTables hin
  | reject hc hopen =>
      rw [hc] at hcompactor
      obtain ⟨-, -, hin, -, -, hholds⟩ := hcompactor
      exact hholds.keepsTables hin
  | unlink hc => exact .unlink
  | _ => exact .none

theorem Serving.keepsTables_compactorFail (h : p.Serving disk m)
    (hfail : p.CompactorFail c status ended) :
  KeepsTables disk c
  := by
  have hcompactor := h.compactor
  cases hfail with
  | write hw hc =>
      rw [hw] at hcompactor
      obtain ⟨-, -, hin, -, -, hholds⟩ := hcompactor
      exact hholds.keepsTables_failed hin hc
  | unlink hw => exact .none

/-- A step of the compaction thread ends the process or leaves it running. -/
theorem CompactorStep.down_or_running (h : p.CompactorStep disk c status ended) :
  status = .down ∨ ∃ q, status = .running q
  := by
  cases h with
  | mergeFail hc hmerge => exact Or.inl rfl
  | reject hc hopen => exact Or.inl rfl
  | _ => exact Or.inr ⟨_, rfl⟩

theorem CompactorFail.down_or_running (h : p.CompactorFail c status ended) :
  status = .down ∨ ∃ q, status = .running q
  := by
  cases h with
  | write hw hc => exact Or.inl rfl
  | unlink hw => exact Or.inr ⟨_, rfl⟩

end Process

/-! ### Opening -/

/-- The members a process can start with. -/
structure Database.Ready (db : Database) : Prop where
  valid : ∀ r ∈ db.sstables, r.Valid
  below : ∀ r ∈ db.sstables, r.path < db.nextSstableNumber
  inRange : db.memtable.entries.InRange

theorem Database.Ready.serving {db : Database} (h : db.Ready) (disk : DbDisk) :
  db.idle.Serving disk db.view
  := ⟨h.valid, h.below, trivial, trivial, trivial, trivial, h.inRange, rfl⟩

theorem Database.ready_of_discover {thr : UInt64} {trig : ℕ} {disk : DbDisk} {db : Database}
    (hdisk : Intact disk) (h : Database.discover thr trig disk = .ok db) :
  db.Ready
  := by
  obtain ⟨hopen, hmem⟩ := Database.discovered_of_discover h
  refine ⟨hdisk.valid hopen, (Database.wellFormed_of_discover h).below, ?_⟩
  rw [hmem]
  exact List.forall_mem_nil _

/-- Whatever the log holds, what a replay puts into the MemTable fits its fields. -/
theorem Database.Ready.replay {db : Database} (h : db.Ready) (log : Bytes) :
  (db.replay log).Ready
  := by
  refine ⟨h.valid, h.below, ?_⟩
  have hall : ∀ r ∈ (replayLog log).1, Fit r.key r.value := fun r hr => fit_of_mem_replayLog hr
  rw [Database.replay]
  have hin := h.inRange
  generalize db.memtable = memtable at hin
  generalize (replayLog log).1 = records at hall
  induction records generalizing memtable with
  | nil => exact hin
  | cons r records ih =>
      rw [List.foldl_cons]
      apply ih _ _ (fun r' hr' => hall r' (List.mem_cons_of_mem _ hr'))
      have hr := hall r List.mem_cons_self
      rw [MemTable.replay]
      cases htype : r.type with
      | put => exact @MemTable.inRange_apply memtable hin (.put r.key r.value) hr
      | delete =>
          exact @MemTable.inRange_apply memtable hin (.remove r.key) ⟨hr.1, Nat.two_pow_pos 32⟩

/-! ### The machine -/

/-- Every SSTable is one of a table, and the members are those a process can start with, or serve
some map. -/
def Status.Serves (status : Status) (disk : DbDisk) : Prop :=
  Intact disk ∧
    match status with
    | opening (.creatingLog db) => db.Ready
    | opening (.replaying db) => db.Ready
    | opening (.truncating db _) => db.Ready
    | running p => ∃ m, p.Serving disk m
    | _ => True

theorem Opener.serves_step {o : Opener} {disk disk' : DbDisk} {c : Option DbSyscall}
    {status : Status} {calls : List Call} (h : (Status.opening o).Serves disk)
    (hdisk : disk' = Syscall.execOption c disk) (hstep : o.Step disk' c status calls) :
  status.Serves disk'
  := by
  obtain ⟨hintact, hopening⟩ := h
  subst hdisk
  cases hstep with
  | clean hn => exact ⟨hintact.exec (.other (by simp [Syscall.files])), trivial⟩
  | discover hdiscover => exact ⟨hintact, Database.ready_of_discover hintact hdiscover⟩
  | reject hdiscover => exact ⟨hintact, trivial⟩
  | createLog => exact ⟨hintact.exec (.other (by simp [Syscall.files])), hopening⟩
  | replayTorn hlog hlt => exact ⟨hintact, hopening.replay _⟩
  | replayWhole hlog hle => exact ⟨hintact, _, (hopening.replay _).serving _⟩
  | truncate =>
      exact ⟨hintact.exec (.other (by simp [Syscall.files])), _, hopening.serving _⟩

theorem Status.serves_step {s t : State} {a : Action} (h : s.status.Serves s.disk)
    (hin : a.InRange) (hstep : step s a = some t) :
  t.status.Serves t.disk
  := by
  obtain ⟨hintact, hstatus⟩ := h
  obtain ⟨c, calls, hmove, hdisk, -⟩ := step_any_cases hstep
  generalize s.status = status at hstatus hmove
  generalize t.disk = disk' at hmove hdisk ⊢
  generalize t.status = status' at hmove ⊢
  cases hmove with
  | succeeds hmove =>
      cases hmove with
      | start =>
          rw [hdisk]
          exact ⟨hintact, trivial⟩
      | restart =>
          rw [hdisk]
          exact ⟨hintact, trivial⟩
      | opener hopener => exact Opener.serves_step ⟨hintact, hstatus⟩ hdisk hopener
      | killOpener =>
          rw [hdisk]
          exact ⟨hintact, trivial⟩
      | call hw =>
          obtain ⟨m, hserving⟩ := hstatus
          rw [hdisk]
          exact ⟨hintact, m, hserving.call hw hin⟩
      | writer hwriter =>
          obtain ⟨m, hserving⟩ := hstatus
          have hkeep := hintact.exec (hserving.keepsTables_writerStep hwriter)
          obtain ⟨q, rfl, -, hserving'⟩ := hserving.writerStep hdisk hwriter
          rw [hdisk] at hserving' ⊢
          exact ⟨hkeep, _, hserving'⟩
      | compactor hcompactor =>
          obtain ⟨m, hserving⟩ := hstatus
          have hkeep := hintact.exec (hserving.keepsTables_compactorStep hcompactor)
          obtain rfl | ⟨q, rfl⟩ := hcompactor.down_or_running
          · rw [hdisk]
            exact ⟨hkeep, trivial⟩
          · have hserving' := hserving.compactorStep hdisk hcompactor rfl
            rw [hdisk] at hserving' ⊢
            exact ⟨hkeep, m, hserving'⟩
      | close hw hc =>
          rw [hdisk]
          exact ⟨hintact, trivial⟩
      | kill =>
          rw [hdisk]
          exact ⟨hintact, trivial⟩
  | keepLeftover =>
      rw [hdisk]
      exact ⟨hintact, trivial⟩
  | openerFail =>
      rw [hdisk]
      exact ⟨hintact, trivial⟩
  | writerFail hfail =>
      obtain ⟨m, hserving⟩ := hstatus
      have hkeep := hintact.exec (hserving.keepsTables_writerFail hfail)
      obtain ⟨q, rfl, -, hserving'⟩ := hserving.writerFail hdisk hfail
      rw [hdisk] at hserving' ⊢
      exact ⟨hkeep, m, hserving'⟩
  | compactorFail hfail =>
      obtain ⟨m, hserving⟩ := hstatus
      have hkeep := hintact.exec (hserving.keepsTables_compactorFail hfail)
      obtain rfl | ⟨q, rfl⟩ := hfail.down_or_running
      · rw [hdisk]
        exact ⟨hkeep, trivial⟩
      · have hserving' := hserving.compactorFail hdisk hfail rfl
        rw [hdisk] at hserving' ⊢
        exact ⟨hkeep, m, hserving'⟩

/-- Whatever calls fail, and however often the process ends, a process serves some map. -/
theorem Status.serves_of_reaches {s : State}
    (h : Reaches step (fun _ a _ => a.InRange) State.init s) :
  s.status.Serves s.disk
  := by
  apply h.invariant (I := fun s => s.status.Serves s.disk)
  · refine ⟨?_, trivial⟩
    intro n contents hfind
    simp [State.init] at hfind
  · intro s a t hs hstep hin
    exact Status.serves_step hs hin hstep

end TinyLsm
