import TinyLsm.LengthLimits

/-!
# Processes that go on after a failed call

The invariant that a running process keeps when calls fail: it says what the members are and what
the files being written hold, and nothing about the other files, among which a failed flush may
leave a table that is not listed.  The database stands for every operation whose record was appended
to the log (`Process.Serving`); the steps of writers, of compactions and of calls that fail at any
point keep this.
-/

namespace TinyLsm

open FileSystem Layers

/-! ### Operations in the log -/

/-- The operation whose record is written to the log as a whole but not synced. -/
def Writer.complete : Writer → List Op
  | idle => []
  | appending op [] => [op]
  | appending _ (_ :: _) => []
  | applying _ => []
  | flushing _ _ => []
  | resetting _ => []

theorem Writer.complete_appending {op : Op} {rest : Bytes} (h : rest ≠ []) :
  (appending op rest).complete = []
  := by
  cases rest with
  | nil => exact absurd rfl h
  | cons b bs => rfl

/-- The operations whose record is in the log to stay from this action on: that of the writer when
it is synced, and one that is written as a whole when the process is killed. -/
def landed (s : State) (a : Action) : List Op :=
  match s.status, a with
  | .running p, .writer _ => p.writer.complete
  | .running p, .kill => p.writer.complete
  | _, _ => []

/-- The view is the map of the operations in the log; while the MemTable is to be updated, it lacks
the last. -/
def Writer.Counted (w : Writer) (v m : Bytes → Option Bytes) : Prop :=
  match w with
  | appending op _ => op.InRange ∧ v = m
  | applying op => op.InRange ∧ m = op.apply v
  | _ => v = m

/-! ### The invariant -/

/-- What the compaction thread has merged, and the reader it is about to list. -/
def Compactor.Merged (c : Compactor) (next : ℕ) : Prop :=
  match c with
  | allocating toCompact m => m.layer = mergedLayer toCompact
  | writing toCompact m _ _ => m.layer = mergedLayer toCompact
  | swapping toCompact compacted =>
      compacted.Valid ∧ compacted.path < next ∧ compacted.layer = mergedLayer toCompact
  | _ => True

theorem Compactor.Merged.mono {c : Compactor} {next next' : ℕ} (h : c.Merged next)
    (hle : next ≤ next') :
  c.Merged next'
  := by
  cases c with
  | swapping toCompact compacted => exact ⟨h.1, h.2.1.trans_le hle, h.2.2⟩
  | _ => exact h

/-- The process serves the map of the operations in the log. -/
structure Process.Serving (p : Process) (disk : DbDisk) (m : Bytes → Option Bytes) : Prop where
  valid : ∀ r ∈ p.db.sstables, r.Valid
  below : ∀ r ∈ p.db.sstables, r.path < p.db.nextSstableNumber
  compactor : p.compactor.WellFormed p.db disk
  merged : p.compactor.Merged p.db.nextSstableNumber
  writer : p.writer.WellFormed p.db disk
  flushed : p.writer.Flushed p.db
  inRange : p.db.memtable.entries.InRange
  counted : p.writer.Counted p.db.view m

/-- The entries stay in range with an operation in range. -/
theorem MemTable.inRange_apply {m : MemTable} (h : m.entries.InRange) {op : Op} (hop : op.InRange) :
  (m.apply op).entries.InRange
  := by
  rw [MemTable.entries_apply]
  apply EntryMap.InRange.insert h
  cases op with
  | put key value => exact hop
  | remove key => exact hop

/-- The swap leaves the view. -/
theorem Database.view_swapIn {db : Database} {toCompact : List SSTableReader} {r : SSTableReader}
    (hpre : toCompact <+: db.sstables) (hr : r.layer = mergedLayer toCompact) :
  (db.swapIn r toCompact.length).view = db.view
  := by
  obtain ⟨rest, hrest⟩ := hpre
  have hdrop := view_drop_merged Entry.live (toCompact.map SSTableReader.layer) []
    (rest.map SSTableReader.layer ++ [db.memtable.entries.layer])
  rw [List.append_nil, List.nil_append] at hdrop
  rw [view, view, layers, layers, swapIn, ← hrest, List.drop_left]
  simp only [List.map_cons, List.map_append, List.cons_append, List.append_assoc, hr]
  exact hdrop

namespace Process

variable {p : Process} {disk disk' : DbDisk} {c : Option DbSyscall} {status : Status}
  {m m' : Bytes → Option Bytes} {ended : List Call}

/-- A change of the writer that keeps the tables. -/
theorem Serving.setWriter (h : p.Serving disk m) {db : Database} {w : Writer}
    (hsst : db.sstables = p.db.sstables) (hnext : db.nextSstableNumber = p.db.nextSstableNumber)
    (htmp : ∀ n, n < p.db.nextSstableNumber → disk'.find? (.tmp n) = disk.find? (.tmp n))
    (hw : w.WellFormed db disk') (hflushed : w.Flushed db) (hin : db.memtable.entries.InRange)
    (hcounted : w.Counted db.view m') :
  ({ p with db := db, writer := w } : Process).Serving disk' m'
  where
    valid := by
      rw [hsst]
      exact h.valid
    below := by
      rw [hsst, hnext]
      exact h.below
    compactor := h.compactor.congr hsst hnext htmp
    merged := by
      rw [hnext]
      exact h.merged
    writer := hw
    flushed := hflushed
    inRange := hin
    counted := hcounted

/-- A step that only writes to the log or to the next table keeps the files of the compaction. -/
theorem find?_tmp_of_log {name : Syscall FileName UInt8} (hname : name.files = [.walLog]) (n : ℕ) :
  (name.exec disk).find? (.tmp n) = disk.find? (.tmp n)
  := by
  apply Syscall.find?_exec_of_notMem
  rw [hname]
  simp

/-- After a step of the writer the process serves the operations in the log. -/
theorem Serving.writerStep (h : p.Serving disk m) (hdisk : disk' = Syscall.execOption c disk)
    (hstep : p.WriterStep disk' c status ended) :
  ∃ q, status = .running q ∧ q.compactor = p.compactor
    ∧ q.Serving disk' (applyAll m p.writer.complete)
  := by
  have hcounted := h.counted
  have hwriter := h.writer
  subst hdisk
  cases hstep with
  | @append op written rest hw hne =>
      rw [hw] at hcounted
      have hrest : written ++ rest ≠ [] := fun hnil => hne (List.append_eq_nil_iff.mp hnil).1
      rw [hw, Writer.complete_appending hrest, applyAll_nil]
      refine ⟨_, rfl, rfl, h.setWriter rfl rfl (fun n _ => ?_) trivial trivial h.inRange hcounted⟩
      exact find?_tmp_of_log rfl n
  | @sync op hw =>
      rw [hw] at hcounted
      rw [hw]
      refine ⟨_, rfl, rfl, h.setWriter rfl rfl (fun n _ => rfl) trivial trivial h.inRange ?_⟩
      exact ⟨hcounted.1, by rw [hcounted.2, Writer.complete, applyAll_singleton]⟩
  | @apply op hw hflush =>
      rw [hw] at hcounted
      obtain ⟨hop, rfl⟩ := hcounted
      rw [hw, Writer.complete, applyAll_nil]
      refine ⟨_, rfl, rfl, h.setWriter rfl rfl (fun n _ => rfl) trivial trivial
        (MemTable.inRange_apply h.inRange hop) ?_⟩
      change ({ p.db with memtable := p.db.memtable.apply op } : Database).view = _
      rw [view_applied]
  | @startFlush op hw hflush =>
      rw [hw] at hcounted
      obtain ⟨hop, rfl⟩ := hcounted
      rw [hw, Writer.complete, applyAll_nil]
      refine ⟨_, rfl, rfl, h.setWriter rfl rfl (fun n _ => rfl) rfl trivial
        (MemTable.inRange_apply h.inRange hop) ?_⟩
      change ({ p.db with memtable := p.db.memtable.apply op } : Database).view = _
      rw [view_applied]
  | @write op file file' c hw hfile =>
      rw [hw] at hcounted hwriter
      rw [hw, Writer.complete, applyAll_nil]
      refine ⟨_, rfl, rfl, h.setWriter rfl rfl (fun n hn => ?_) (hfile.holds hwriter) trivial
        h.inRange hcounted⟩
      apply hfile.find?_exec
      simpa using hn.ne
  | @rename op r hw hopen =>
      rw [hw] at hcounted hwriter
      rw [hw, Writer.complete, applyAll_nil]
      obtain ⟨t, hentries, hload⟩ := openSSTable_written hwriter h.inRange
      rw [Syscall.execOption_some, hload] at hopen
      obtain rfl := Except.ok.inj hopen
      have hlayer : (t.reader p.db.nextSstableNumber).layer = p.db.memtable.entries.layer := by
        rw [t.layer_reader, hentries]
      refine ⟨_, rfl, rfl, ?_, ?_, ?_, h.merged.mono (Nat.le_succ _), trivial, ?_, h.inRange, ?_⟩
      · change ∀ r' ∈ p.db.sstables ++ [_], r'.Valid
        rw [List.forall_mem_append, List.forall_mem_singleton]
        exact ⟨h.valid, t.valid_reader _⟩
      · change ∀ r' ∈ p.db.sstables ++ [_], r'.path < p.db.nextSstableNumber + 1
        rw [List.forall_mem_append, List.forall_mem_singleton]
        exact ⟨fun r' hr' => (h.below r' hr').trans (Nat.lt_succ_self _), Nat.lt_succ_self _⟩
      · exact h.compactor.pushTable rfl
      · exact ⟨p.db.sstables, _, rfl, hlayer⟩
      · exact (view_pushTable hlayer).trans hcounted
  | @reject op e hw hopen =>
      rw [hw] at hcounted
      rw [hw, Writer.complete, applyAll_nil]
      refine ⟨_, rfl, rfl, h.setWriter rfl rfl (fun n hn => ?_) trivial trivial h.inRange hcounted⟩
      apply Syscall.find?_exec_of_notMem
      simpa [Syscall.files] using hn.ne
  | @reset op hw =>
      have hflushed := h.flushed
      rw [hw] at hcounted hflushed
      rw [hw, Writer.complete, applyAll_nil]
      obtain ⟨older, r, hsst, hlayer⟩ := hflushed
      refine ⟨_, rfl, rfl, h.setWriter p.db.clearMemtable_sstables
        p.db.clearMemtable_nextSstableNumber (fun n _ => ?_) trivial trivial ?_ ?_⟩
      · exact find?_tmp_of_log rfl n
      · rw [p.db.clearMemtable_memtable]
        exact List.forall_mem_nil _
      · exact (view_clearMemtable hsst hlayer).trans hcounted

/-- The call of `WriteSSTable` that fails, if it takes effect, changes only the files of its
table. -/
theorem find?_failedMove {file : FileWrite} {n : ℕ}
    (hc : c = none ∨ c = (file.move n 0).map Prod.fst) {name : FileName} (htmp : name ≠ .tmp n)
    (hsst : name ≠ .sst n) :
  (Syscall.execOption c disk).find? name = disk.find? name
  := by
  obtain rfl | rfl := hc
  · rfl
  · cases hmove : file.move n 0 with
    | none => rfl
    | some move =>
        obtain ⟨call, after⟩ := move
        rw [Option.map_some, Syscall.execOption_some]
        cases after with
        | some file' => exact (FileWrite.step_of_move hmove).find?_exec htmp
        | none =>
            obtain ⟨-, rfl⟩ := FileWrite.eq_synced_of_move hmove
            apply Syscall.find?_exec_of_notMem
            simp [Syscall.files, htmp, hsst]

/-- A call that fails, wherever it does, leaves a process that serves the operations in the log. -/
theorem Serving.writerFail (h : p.Serving disk m) (hdisk : disk' = Syscall.execOption c disk)
    (hfail : p.WriterFail c status ended) :
  ∃ q, status = .running q ∧ q.compactor = p.compactor ∧ q.Serving disk' m
  := by
  have hcounted := h.counted
  subst hdisk
  cases hfail with
  | append hw hc =>
      rw [hw] at hcounted
      refine ⟨_, rfl, rfl, h.setWriter rfl rfl (fun n _ => ?_) trivial trivial h.inRange hcounted.2⟩
      obtain rfl | rfl := hc
      · rfl
      · rfl
  | flush hw hc =>
      rw [hw] at hcounted
      refine ⟨_, rfl, rfl, h.setWriter rfl rfl (fun n hn => ?_) trivial trivial h.inRange hcounted⟩
      apply find?_failedMove hc
      · simpa using hn.ne
      · simp
  | reset hw hc =>
      rw [hw] at hcounted
      refine ⟨_, rfl, rfl, h.setWriter rfl rfl (fun n hn => ?_) trivial trivial h.inRange hcounted⟩
      obtain rfl | rfl := hc
      · rfl
      · exact find?_tmp_of_log rfl n

/-! ### Compactions -/

/-- A change of the compaction thread that keeps the members. -/
theorem Serving.setCompactor (h : p.Serving disk m) {db : Database} {compactor : Compactor}
    (hsst : db.sstables = p.db.sstables) (hnext : db.nextSstableNumber = p.db.nextSstableNumber)
    (hmem : db.memtable = p.db.memtable)
    (htmp : disk'.find? (.tmp p.db.nextSstableNumber) = disk.find? (.tmp p.db.nextSstableNumber))
    (hc : compactor.WellFormed db disk') (hmerged : compactor.Merged p.db.nextSstableNumber) :
  ({ p with db := db, compactor := compactor } : Process).Serving disk' m
  where
    valid := by
      rw [hsst]
      exact h.valid
    below := by
      rw [hsst, hnext]
      exact h.below
    compactor := hc
    merged := by
      rw [hnext]
      exact hmerged
    writer := h.writer.congr hnext hmem htmp
    flushed := by
      have hflushed := h.flushed
      simp only [Writer.Flushed, hsst, hmem] at hflushed ⊢
      exact hflushed
    inRange := by
      rw [hmem]
      exact h.inRange
    counted := by
      have hview : db.view = p.db.view := by
        rw [Database.view, Database.view, Database.layers, Database.layers, hsst, hmem]
      change p.writer.Counted db.view m
      rw [hview]
      exact h.counted

/-- A step of the compaction thread, if the process goes on, serves the operations in the log. -/
theorem Serving.compactorStep (h : p.Serving disk m) (hdisk : disk' = Syscall.execOption c disk)
    (hstep : p.CompactorStep disk' c status ended) {q : Process} (hq : status = .running q) :
  q.Serving disk' m
  := by
  have hcompactor := h.compactor
  have hmerged := h.merged
  subst hdisk hq
  cases hstep with
  | consume hc hreq => exact h.setCompactor rfl rfl rfl rfl trivial trivial
  | skip hc hw hlen => exact h.setCompactor rfl rfl rfl rfl trivial trivial
  | snapshot hc hw hlen =>
      exact h.setCompactor rfl rfl rfl rfl (List.prefix_refl _) trivial
  | @merge toCompact merged hc hmerge =>
      rw [hc] at hcompactor
      have hlayer :=
        layer_of_compactedEntries (fun r hr => h.valid r (hcompactor.subset hr)) hmerge
      exact h.setCompactor rfl rfl rfl rfl ⟨hcompactor, inRange_compactedEntries hmerge⟩ hlayer
  | @allocate toCompact merged hc hw =>
      have hcounted := h.counted
      rw [hc] at hcompactor hmerged
      refine ⟨h.valid, ?_, ?_, hmerged, ?_, ?_, h.inRange, hcounted⟩
      · exact fun r hr => (h.below r hr).trans (Nat.lt_succ_self _)
      · exact ⟨hcompactor.1, fun r hr => h.below r (hcompactor.1.subset hr), hcompactor.2,
          Nat.lt_succ_self _, fun r hr => (h.below r hr).ne, rfl⟩
      · simp only [hw]
        trivial
      · simp only [hw]
        trivial
  | @write toCompact merged n file file' c hc hfile =>
      rw [hc] at hcompactor hmerged
      obtain ⟨hpre, hpaths, hin, hlt, hne, hholds⟩ := hcompactor
      refine h.setCompactor rfl rfl rfl ?_ ⟨hpre, hpaths, hin, hlt, hne, hfile.holds hholds⟩ hmerged
      apply hfile.find?_exec
      simpa using hlt.ne'
  | @rename toCompact merged n r hc hopen =>
      rw [hc] at hcompactor hmerged
      obtain ⟨hpre, hpaths, hin, hlt, hne, hholds⟩ := hcompactor
      obtain ⟨t, hentries, hload⟩ := openSSTable_written hholds hin
      rw [Syscall.execOption_some, hload] at hopen
      obtain rfl := Except.ok.inj hopen
      refine h.setCompactor rfl rfl rfl ?_ ⟨hpre, hpaths⟩ ⟨t.valid_reader n, hlt, ?_⟩
      · apply Syscall.find?_exec_of_notMem
        simpa [Syscall.files] using hlt.ne'
      · rw [t.layer_reader, hentries]
        exact hmerged
  | @swap toCompact r hc hw =>
      rw [hc] at hcompactor hmerged
      obtain ⟨hvalid, hlt, hlayer⟩ := hmerged
      have hmem : ∀ r' ∈ p.db.sstables.drop toCompact.length, r' ∈ p.db.sstables :=
        fun r' hr' => List.mem_of_mem_drop hr'
      refine ⟨?_, ?_, trivial, trivial, ?_, ?_, h.inRange, ?_⟩
      · change ∀ r' ∈ r :: p.db.sstables.drop toCompact.length, r'.Valid
        rw [List.forall_mem_cons]
        exact ⟨hvalid, fun r' hr' => h.valid r' (hmem r' hr')⟩
      · change ∀ r' ∈ r :: p.db.sstables.drop toCompact.length, r'.path < p.db.nextSstableNumber
        rw [List.forall_mem_cons]
        exact ⟨hlt, fun r' hr' => h.below r' (hmem r' hr')⟩
      · simp only [hw]
        trivial
      · simp only [hw]
        trivial
      · change p.writer.Counted (p.db.swapIn r toCompact.length).view m
        rw [Database.view_swapIn hcompactor.1 hlayer]
        exact h.counted
  | unlink hc =>
      refine h.setCompactor rfl rfl rfl ?_ trivial trivial
      apply Syscall.find?_exec_of_notMem
      simp [Syscall.files]
  | deleted hc => exact h.setCompactor rfl rfl rfl rfl trivial trivial
  | finish hc => exact h.setCompactor rfl rfl rfl rfl trivial trivial

/-- A file that is not removed does not matter to the process. -/
theorem Serving.compactorFail (h : p.Serving disk m) (hdisk : disk' = Syscall.execOption c disk)
    (hfail : p.CompactorFail c status ended) {q : Process} (hq : status = .running q) :
  q.Serving disk' m
  := by
  subst hdisk hq
  cases hfail with
  | unlink hc => exact h.setCompactor rfl rfl rfl rfl trivial trivial

/-- A call begins. -/
theorem Serving.call (h : p.Serving disk m) (hw : p.writer = .idle) {op : Op} (hop : op.InRange) :
  ({ p with writer := .appending op op.encode } : Process).Serving disk m
  := by
  have hcounted := h.counted
  rw [hw] at hcounted
  exact h.setWriter rfl rfl (fun n _ => rfl) trivial trivial h.inRange ⟨hop, hcounted⟩

end Process

/-! ### Steps of a running process -/

/-- The process, if one runs, serves the map. -/
def State.Serving (s : State) (m : Bytes → Option Bytes) : Prop :=
  ∀ p, s.status = .running p → p.Serving s.disk m

/-- A step of a process that runs, in which every call may fail. -/
structure StepServes (s : State) (a : Action) : Prop where
  running : ∃ p, s.status = .running p
  inRange : a.InRange

theorem landed_eq_nil {s : State} {a : Action} (hwriter : ∀ count, a ≠ .writer count)
    (hkill : a ≠ .kill) :
  landed s a = []
  := by
  unfold landed
  split
  · exact absurd rfl (hwriter _)
  · exact absurd rfl hkill
  · rfl

theorem State.Serving.step {s t : State} {a : Action} {m : Bytes → Option Bytes} (h : s.Serving m)
    (hok : StepServes s a) (hstep : step s a = some t) :
  t.Serving (applyAll m (landed s a))
  := by
  obtain ⟨p, hp⟩ := hok.running
  have hserving := h p hp
  have hin := hok.inRange
  intro q hq
  obtain ⟨c, calls, hstatus, hdisk, -⟩ := step_any_cases hstep
  rw [hp, hq] at hstatus
  generalize t.disk = disk' at hstatus hdisk ⊢
  cases hstatus with
  | succeeds hstatus =>
      cases hstatus with
      | call hw =>
          rw [landed_eq_nil (by simp) (by simp), applyAll_nil, hdisk]
          exact hserving.call hw hin
      | @writer _ count c status calls hwriter =>
          have hlanded : landed s (.writer count) = p.writer.complete := by simp only [landed, hp]
          obtain ⟨q', hq', -, hserving'⟩ := hserving.writerStep hdisk hwriter
          rw [Status.running.injEq] at hq'
          rw [hlanded, hq']
          exact hserving'
      | compactor hcompactor =>
          rw [landed_eq_nil (by simp) (by simp), applyAll_nil]
          exact hserving.compactorStep hdisk hcompactor rfl
  | writerFail hfail =>
      obtain ⟨q', hq', -, hserving'⟩ := hserving.writerFail hdisk hfail
      rw [Status.running.injEq] at hq'
      rw [landed_eq_nil (by simp) (by simp), applyAll_nil, hq']
      exact hserving'
  | compactorFail hfail =>
      rw [landed_eq_nil (by simp) (by simp), applyAll_nil]
      exact hserving.compactorFail hdisk hfail rfl

end TinyLsm
