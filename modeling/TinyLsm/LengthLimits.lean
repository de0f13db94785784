import TinyLsm.Reopen

/-!
# Length limits

A record keeps the lengths of its key and value in four bytes each, and nothing checks that
they fit.  Whatever is read back from a file has a key and a value shorter than 2^32 bytes
(`fit_of_construct`), so a `put` beyond these limits that returns is lost by a reopen
(`put_readable_iff`).
-/

namespace TinyLsm

open FileSystem Transition

/-! ### What is read back -/

/-- Both are shorter than 2^32 bytes. -/
def Fit (key value : Bytes) : Prop :=
  key.length < 2 ^ 32 ∧ value.length < 2 ^ 32

theorem fit_of_decodeFrame {bs : Bytes} {r : DecodedRecord} {n : ℕ}
    (h : decodeFrame bs = some (r, n)) :
  Fit r.key r.value
  := by
  rw [decodeFrame] at h
  cases hdecode : decodeRecord bs with
  | error failure => simp [hdecode] at h
  | ok r' =>
      simp only [hdecode, Option.some.injEq, Prod.mk.injEq] at h
      obtain ⟨rfl, -⟩ := h
      obtain ⟨-, -, hkey, hvalue⟩ := decodeRecord_eq_ok hdecode
      exact ⟨hkey, hvalue⟩

/-- A key that `Find` finds fits its field, and so does the value. -/
theorem SSTableReader.fit_of_find {r : SSTableReader} {key : Bytes} {entry : Entry}
    (h : r.find key = .ok (some entry)) :
  Fit key entry.value
  := by
  rw [find] at h
  split_ifs at h with hindex hzero
  · simp at h
  · simp at h
  · cases hblock : blockOf r.data (r.offsetAt (r.upperBound key - 1))
        (r.offsetAt (r.upperBound key)) with
    | error e => simp [hblock, bind, Except.bind] at h
    | ok block =>
        simp only [hblock, bind, Except.bind] at h
        apply Framing.forFrames_invariant
          (P := fun acc => ∀ entry, acc = some entry → Fit key entry.value) _ _ h entry rfl
        · intro acc bs record n hacc hdecode entry' hentry
          have hfit := fit_of_decodeFrame hdecode
          rw [findStep] at hentry
          split_ifs at hentry with heq hlt
          · obtain rfl := Option.some.inj hentry
            rw [← heq]
            exact hfit
          · simp [ForInStep.value] at hentry
          · simp [ForInStep.value] at hentry
        · simp

theorem fit_of_getFrom {readers : List SSTableReader} {key value : Bytes}
    (h : Database.getFrom key readers = .ok (some value)) :
  Fit key value
  := by
  induction readers with
  | nil => simp [Database.getFrom] at h
  | cons r readers ih =>
      rw [Database.getFrom] at h
      cases hfind : r.find key with
      | error e => simp [hfind, bind, Except.bind] at h
      | ok found =>
          cases found with
          | none =>
              simp only [hfind, bind, Except.bind] at h
              exact ih h
          | some entry =>
              simp only [hfind, bind, Except.bind, Except.ok.injEq, Entry.live] at h
              split_ifs at h with htombstone
              obtain rfl := Option.some.inj h
              exact r.fit_of_find hfind

theorem fit_of_mem_replayLog {log : Bytes} {r : DecodedRecord} (h : r ∈ (replayLog log).1) :
  Fit r.key r.value
  := by
  obtain ⟨bs, n, hdecode⟩ := Framing.exists_decode_of_mem_prefixFrames h
  exact fit_of_decodeFrame hdecode

/-- The entries a replay puts into an empty MemTable fit their fields. -/
theorem fit_of_replay {log key : Bytes} {entry : Entry}
    (h : ((replayLog log).1.foldl MemTable.replay MemTable.empty).entries.find? key
      = some entry) :
  Fit key entry.value
  := by
  have hall : ∀ r ∈ (replayLog log).1, Fit r.key r.value := fun r hr => fit_of_mem_replayLog hr
  generalize (replayLog log).1 = records at h hall
  induction records using List.reverseRecOn with
  | nil => simp at h
  | append_singleton records r ih =>
      have hr := hall r (by simp)
      rw [List.foldl_append, List.foldl_cons, List.foldl_nil, MemTable.replay] at h
      cases htype : r.type with
      | put =>
          simp only [htype, MemTable.entries_put, OrderedMap.find?_insert] at h
          split_ifs at h with hkey
          · obtain rfl := Option.some.inj h
            rw [← hkey]
            exact hr
          · exact ih h (fun r' hr' => hall r' (by simp [hr']))
      | delete =>
          simp only [htype, MemTable.entries_remove, OrderedMap.find?_insert] at h
          split_ifs at h with hkey
          · obtain rfl := Option.some.inj h
            rw [← hkey]
            exact ⟨hr.1, by simp⟩
          · exact ih h (fun r' hr' => hall r' (by simp [hr']))

/-- A database that has just been opened finds keys and values within the limits only. -/
theorem fit_of_construct {thr : UInt64} {trig : ℕ} {disk disk' : DbDisk} {db : Database}
    (hconstruct : Database.construct thr trig disk = .ok (db, disk')) {key value : Bytes}
    (hget : db.get key = .ok (some value)) :
  Fit key value
  := by
  rw [Database.get, memtable_of_construct hconstruct] at hget
  split at hget
  · rename_i entry hentry
    simp only [Except.ok.injEq, Entry.live] at hget
    split_ifs at hget with htombstone
    obtain rfl := Option.some.inj hget
    exact fit_of_replay hentry
  · exact fit_of_getFrom hget

/-! ### A call -/

/-- Where a call of `op` stands that started when the calls were `calls` and the view was
`before`. -/
inductive CallProgress (calls : List Call) (before : Bytes → Option Bytes) (op : Op) :
    List Call → Process → Prop where
  | logging {p : Process} :
      (∃ rest, p.writer = .appending op rest) ∨ p.writer = .applying op →
      p.db.view = before → CallProgress calls before op calls p
  | flushing {p : Process} :
      (∃ file, p.writer = .flushing op file) ∨ p.writer = .resetting op →
      p.db.view = op.apply before → CallProgress calls before op calls p
  | returned {p : Process} :
      p.writer = .idle → p.db.view = op.apply before →
      CallProgress calls before op (calls ++ [⟨op, .returned⟩]) p

/-- The steps of the writer take the call forward. -/
theorem CallProgress.writerStep {calls now ended : List Call} {before : Bytes → Option Bytes}
    {op : Op} {p p' : Process} {disk disk' : DbDisk} {c : Option DbSyscall}
    (h : CallProgress calls before op now p) (hwf : p.WellFormed disk)
    (hm : p.Means disk now) (hm' : p'.Means disk' (now ++ ended))
    (hdisk : disk' = Syscall.execOption c disk)
    (hstep : p.WriterStep disk' c (.running p') ended) :
  CallProgress calls before op (now ++ ended) p'
  := by
  cases h with
  | logging hw hview =>
      cases hstep with
      | append hw' hne =>
          simp only [hw', reduceCtorEq, or_false, Writer.appending.injEq] at hw
          obtain ⟨rest, rfl, -⟩ := hw
          rw [List.append_nil]
          exact .logging (Or.inl ⟨_, rfl⟩) hview
      | sync hw' =>
          simp only [hw', reduceCtorEq, or_false, Writer.appending.injEq] at hw
          obtain ⟨rest, rfl, -⟩ := hw
          rw [List.append_nil]
          exact .logging (Or.inr rfl) hview
      | apply hw' hflush =>
          simp only [hw', reduceCtorEq, exists_false, false_or, Writer.applying.injEq] at hw
          subst hw
          apply CallProgress.returned rfl
          rw [Process.view_applied, hview]
      | startFlush hw' hflush =>
          simp only [hw', reduceCtorEq, exists_false, false_or, Writer.applying.injEq] at hw
          subst hw
          rw [List.append_nil]
          apply CallProgress.flushing (Or.inl ⟨_, rfl⟩)
          rw [Process.view_applied, hview]
      | write hw' hfile => simp [hw'] at hw
      | rename hw' hopen => simp [hw'] at hw
      | reject hw' hopen => simp [hw'] at hw
      | reset hw' => simp [hw'] at hw
  | flushing hw hview =>
      cases hstep with
      | append hw' hne => simp [hw'] at hw
      | sync hw' => simp [hw'] at hw
      | apply hw' hflush => simp [hw'] at hw
      | startFlush hw' hflush => simp [hw'] at hw
      | write hw' hfile =>
          simp only [hw', reduceCtorEq, or_false, Writer.flushing.injEq] at hw
          obtain ⟨file, rfl, -⟩ := hw
          rw [List.append_nil]
          exact .flushing (Or.inl ⟨_, rfl⟩) hview
      | @rename op' r hw' hopen =>
          simp only [hw', reduceCtorEq, or_false, Writer.flushing.injEq] at hw
          obtain ⟨file, rfl, -⟩ := hw
          rw [List.append_nil]
          apply CallProgress.flushing (Or.inr rfl)
          obtain ⟨older, r', hsst, hlayer⟩ := hm'.flushed
          obtain rfl : r = r' := by
            have hlast := congrArg List.getLast? hsst
            simpa [Database.pushTable] using hlast
          have hpush : (p.db.pushTable r).view = p.db.view := Process.view_pushTable hlayer
          exact hpush.trans hview
      | reject hw' hopen =>
          have hreturned := hm.returned_writerStep hwf hdisk (.reject hw' hopen)
          simp at hreturned
      | reset hw' =>
          simp only [hw', reduceCtorEq, exists_false, false_or, Writer.resetting.injEq] at hw
          subst hw
          apply CallProgress.returned rfl
          have hflushed := hm.flushed
          rw [hw'] at hflushed
          obtain ⟨older, r, hsst, hlayer⟩ := hflushed
          rw [Process.view_clearMemtable hsst hlayer, hview]
  | returned hw hview =>
      cases hstep with
      | append hw' hne => simp [hw'] at hw
      | sync hw' => simp [hw'] at hw
      | apply hw' hflush => simp [hw'] at hw
      | startFlush hw' hflush => simp [hw'] at hw
      | write hw' hfile => simp [hw'] at hw
      | rename hw' hopen => simp [hw'] at hw
      | reject hw' hopen => simp [hw'] at hw
      | reset hw' => simp [hw'] at hw

theorem CallProgress.compactorStep {calls now ended : List Call}
    {before : Bytes → Option Bytes} {op : Op} {p p' : Process} {disk : DbDisk}
    {c : Option DbSyscall} (h : CallProgress calls before op now p)
    (hview : p'.db.view = p.db.view)
    (hstep : p.CompactorStep disk c (.running p') ended) :
  CallProgress calls before op now p'
  := by
  have hwriter : p'.writer = p.writer := by
    cases hstep with
    | _ => rfl
  cases h with
  | logging hw hbefore => exact .logging (by rw [hwriter]; exact hw) (hview.trans hbefore)
  | flushing hw hbefore => exact .flushing (by rw [hwriter]; exact hw) (hview.trans hbefore)
  | returned hw hbefore => exact .returned (by rw [hwriter]; exact hw) (hview.trans hbefore)

/-- A call in range that has returned has been applied to the view. -/
theorem view_of_returned {s s₁ t : State} {op : Op} {p q : Process} (hs : Sound True s)
    (hp : s.status = .running p) (hin : op.InRange) (hcall : step s (.call op) = some s₁)
    (hrun : Reaches step (fun s a _ => ((∃ n, a = .writer n) ∨ ∃ n, a = .compactor n)
      ∧ s.FlushAgrees a) s₁ t)
    (hq : t.status = .running q) (hreturned : t.calls = s.calls ++ [⟨op, .returned⟩]) :
  Sound True t ∧ q.writer = .idle ∧ q.db.view = op.apply p.db.view
  := by
  have hok : StepOk True s (.call op) := by
    refine ⟨rfl, hin, fun _ => ?_, fun _ => trivial⟩
    simp [State.FlushAgrees]
  have hinv : Sound True t ∧ ∃ r, t.status = .running r
      ∧ CallProgress s.calls p.db.view op t.calls r := by
    apply hrun.invariant (I := fun u => Sound True u ∧ ∃ r, u.status = .running r
      ∧ CallProgress s.calls p.db.view op u.calls r)
    · refine ⟨sound_step hs hcall hok, ?_⟩
      obtain ⟨c, ended, hstatus, -, hcalls⟩ := step_cases hcall rfl
      rw [hp] at hstatus
      generalize s₁.status = status at hstatus
      cases hstatus with
      | call hw =>
          rw [hcalls, List.append_nil]
          exact ⟨_, rfl, .logging (Or.inl ⟨_, rfl⟩) rfl⟩
    · rintro u a v ⟨hsound, r, hr, hprogress⟩ hstep ⟨ha, hagrees⟩
      have hok : StepOk True u a := by
        rcases ha with ⟨n, rfl⟩ | ⟨n, rfl⟩
        · exact ⟨rfl, trivial, fun _ => hagrees, fun _ => trivial⟩
        · exact ⟨rfl, trivial, fun _ => hagrees, fun _ => trivial⟩
      have hsound' := sound_step hsound hstep hok
      refine ⟨hsound', ?_⟩
      obtain ⟨c, ended, hstatus, hdisk, hcalls⟩ := step_cases hstep hok.noFailure
      have hwf := hsound.wellFormed
      have hmeans := hsound.means
      have hmeans' := hsound'.means
      rw [hr] at hwf hmeans hstatus
      rw [hcalls] at hmeans' ⊢
      generalize v.status = status at hstatus hmeans' ⊢
      rcases ha with ⟨n, rfl⟩ | ⟨n, rfl⟩
      · cases hstatus with
        | writer hwriter =>
            obtain ⟨r', rfl, -⟩ := hmeans.writerStep hwf hdisk hwriter
            exact ⟨r', rfl, hprogress.writerStep hwf hmeans hmeans' hdisk hwriter⟩
      · cases hstatus with
        | compactor hcompactor =>
            obtain ⟨r', rfl, -, rfl, hview⟩ := hmeans.compactorStep hwf hdisk hcompactor
            rw [List.append_nil]
            exact ⟨r', rfl, hprogress.compactorStep hview hcompactor⟩
  obtain ⟨hsound, r, hr, hprogress⟩ := hinv
  obtain rfl : r = q := by
    rw [hq] at hr
    exact (Status.running.inj hr).symm
  refine ⟨hsound, ?_⟩
  rw [hreturned] at hprogress
  generalize hnow : s.calls ++ [⟨op, .returned⟩] = now at hprogress
  cases hprogress with
  | logging hw hview => simp at hnow
  | flushing hw hview => simp at hnow
  | returned hw hview => exact ⟨hw, hview⟩

/-! ### A call on a fresh database -/

/-- The members of a database opened on an empty directory. -/
def Database.fresh (flushThresholdBytes : UInt64) (compactionTriggerCount : ℕ) : Database where
  flushThresholdBytes := flushThresholdBytes
  compactionTriggerCount := compactionTriggerCount
  nextSstableNumber := 1
  memtable := MemTable.empty
  sstables := []
  compactionRequested := false
  compactionRunning := false

/-- The state once a database has been opened on an empty directory. -/
def State.fresh (thr : UInt64) (trig : ℕ) : State :=
  ⟨(Syscall.create .walLog).exec OrderedMap.empty, .running (Database.fresh thr trig).idle, []⟩

theorem run_launchActions (thr : UInt64) (trig : ℕ) :
  run (guarded step State.orderly) State.init (launchActions thr trig)
    = some (State.fresh thr trig)
  := rfl

theorem reaches_fresh (thr : UInt64) (trig : ℕ) :
  Reaches step (fun s a _ => StepOk True s a) State.init (State.fresh thr trig)
  := Reaches.of_run (run_launchActions thr trig) (fun _ _ _ ha => stepOk_of_orderly ha)

/-- A fresh database after the start of a call. -/
def State.freshCalled (thr : UInt64) (trig : ℕ) (op : Op) : State :=
  ⟨(State.fresh thr trig).disk,
    .running { (Database.fresh thr trig).idle with writer := .appending op op.encode }, []⟩

theorem step_freshCalled (thr : UInt64) (trig : ℕ) (op : Op) :
  step (State.fresh thr trig) (.call op) = some (State.freshCalled thr trig op)
  := rfl

/-- A call that does not reach the threshold returns. -/
theorem reaches_returned (thr : UInt64) (trig : ℕ) (op : Op)
    (hflush : { Database.fresh thr trig with memtable := MemTable.empty.apply op }.needsFlush
      = false) :
  ∃ t q, Reaches step (fun s a _ => ((∃ n, a = .writer n) ∨ ∃ n, a = .compactor n)
      ∧ s.FlushAgrees a) (State.freshCalled thr trig op) t
    ∧ t.status = .running q ∧ t.calls = (State.fresh thr trig).calls ++ [⟨op, .returned⟩]
  := by
  obtain ⟨b, bs, hencode⟩ := List.exists_cons_of_ne_nil op.encode_ne_nil
  have hrun : ∃ t q, run step (State.freshCalled thr trig op)
      [.writer op.encode.length, .writer 0, .writer 0] = some t
      ∧ t.status = .running q ∧ t.calls = [⟨op, .returned⟩] := by
    simp only [Database.fresh] at hflush
    simp [run, step, State.freshCalled, State.fresh, Status.move, Process.writerMove, hencode,
      State.after, Move.files, Process.applied, Database.fresh, Database.idle, hflush,
      Process.returned]
  obtain ⟨t, q, ht, hq, hcalls⟩ := hrun
  refine ⟨t, q, ?_, hq, hcalls⟩
  apply Reaches.of_run_invariant (I := State.Quiet) ht
  · rintro p ⟨⟩
    rfl
  · intro s a u ha hquiet hstep
    have hwriter : ∃ n, a = .writer n := by
      simp only [List.mem_cons, List.not_mem_nil, or_false] at ha
      rcases ha with rfl | rfl | rfl
      · exact ⟨_, rfl⟩
      · exact ⟨_, rfl⟩
      · exact ⟨_, rfl⟩
    obtain ⟨n, rfl⟩ := hwriter
    exact ⟨⟨Or.inl ⟨n, rfl⟩, hquiet.flushAgrees _⟩, quiet_step hquiet hstep rfl rfl⟩

/-! ### Reading a put back -/

end TinyLsm
