import TinyLsm.FailingRuns

/-!
# Failed flushes

A flush may fail before its table is renamed, after that, or when the log is truncated; the MemTable
stays, and a later call tries again.  What is left behind are a table that is not listed, under the
number the next table will have, a table that is listed while the MemTable and the log still have
its entries, or a MemTable with entries that are in the log no longer.  None of this is seen: the
process goes on to answer for every operation in the log, also with compactions between, and
without compactions the directory opens at any point to a database that does
(`failed_flush_loses_nothing`).
-/

namespace TinyLsm

open FileSystem Layers Transition

/-! ### Directories that stand for operations -/

/-- Calls that returned. -/
def finished (ops : List Op) : List Call :=
  ops.map (fun op => ⟨op, .returned⟩)

theorem resolves_finished_iff {ops ops' : List Op} :
  Resolves (finished ops) ops' ↔ ops' = ops
  := by
  constructor
  · intro h
    have hops := h.eq_of_returned (by simp [finished])
    rw [hops, finished, List.map_map]
    exact List.map_id _
  · rintro rfl
    induction ops' using List.reverseRecOn with
    | nil => exact .nil
    | append_singleton ops op ih =>
        rw [finished, List.map_append]
        exact .counted ⟨op, .returned⟩ ih rfl

/-- The directory stands for exactly these operations. -/
theorem atRest_finished_iff {disk : DbDisk} {ops : List Op} :
  AtRest disk (finished ops) ↔ ∃ readers absorbed, Recoverable disk readers absorbed
    ∧ recoveredView readers absorbed = contents ops
  := by
  constructor
  · rintro ⟨readers, absorbed, ops', hrec, hresolves, hview⟩
    rw [resolves_finished_iff.mp hresolves] at hview
    exact ⟨readers, absorbed, hrec, hview⟩
  · rintro ⟨readers, absorbed, hrec, hview⟩
    exact ⟨readers, absorbed, ops, hrec, resolves_finished_iff.mpr rfl, hview⟩

theorem AtRest.loadable {disk : DbDisk} {calls : List Call} (h : AtRest disk calls) :
  Loadable disk
  := by
  obtain ⟨readers, absorbed, ops, hrec, -⟩ := h
  intro n c hfind
  obtain ⟨r, hr, rfl, rfl⟩ := (holds_of_openTables hrec.opened n c).mp hfind
  exact ⟨r, loaded_of_openTables hrec.opened r hr⟩

/-- The database answers for the map. -/
def Database.Answers (db : Database) (m : Bytes → Option Bytes) : Prop :=
  (∀ key, db.get key = .ok (m key))
    ∧ ∀ start stop, ∃ pairs, db.scan start stop = .ok pairs ∧ IsScan m start stop pairs

theorem Database.answers_of_view {db : Database} (h : ∀ r ∈ db.sstables, r.Valid)
    {m : Bytes → Option Bytes} (hview : db.view = m) :
  db.Answers m
  := by
  subst hview
  exact ⟨fun key => get_eq_view h key, fun start stop => scan_eq_view h start stop⟩

/-- A directory that stands for operations opens to a database that answers for them. -/
theorem answers_of_atRest {disk : DbDisk} {ops : List Op} (h : AtRest disk (finished ops))
    (thr : UInt64) (trig : ℕ) :
  ∃ db disk', Database.construct thr trig disk = .ok (db, disk') ∧ db.Answers (contents ops)
  := by
  obtain ⟨readers, absorbed, hrec, hview⟩ := atRest_finished_iff.mp h
  obtain ⟨db, disk', hconstruct, hvalid, hview'⟩ := construct_recoverable hrec thr trig
  exact ⟨db, disk', hconstruct, Database.answers_of_view hvalid (hview'.trans hview)⟩

/-! ### What a failed flush leaves -/

/-- The files restore the process: its tables are there and perhaps one more, under the next number,
and the log has the records of the operations. -/
structure Process.Restorable (p : Process) (disk : DbDisk) (orphan : List SSTableReader)
    (logged : List Op) : Prop where
  holds : Holds disk (p.db.sstables ++ orphan)
  ascending : (p.db.sstables ++ orphan).Pairwise (fun a b => a.path < b.path)
  loaded : ∀ r ∈ p.db.sstables ++ orphan, r.Loaded
  valid : ∀ r ∈ p.db.sstables ++ orphan, r.Valid
  number : ∀ r ∈ orphan, r.path = p.db.nextSstableNumber
  listed : ∀ op, p.writer = .resetting op → orphan = []
  inRange : ∀ op ∈ logged, op.InRange
  log : ∃ log, disk.find? .walLog = some log ∧ p.writer.Logged logged log
  restores : Restores (p.db.sstables.map SSTableReader.layer)
    (newest (orphan.map SSTableReader.layer)) (memTableOf logged).entries.layer
    p.db.memtable.entries.layer

namespace Process

variable {p : Process} {disk disk' : DbDisk} {c : Option DbSyscall} {status : Status}
  {m : Bytes → Option Bytes} {ops logged logged' : List Op} {orphan : List SSTableReader} {ended : List Call}

/-- The files are read like the members. -/
theorem Restorable.recoveredView_eq (h : p.Restorable disk orphan logged) :
  recoveredView (p.db.sstables ++ orphan) logged = p.db.view
  := by
  have hnewest := h.restores.newest_eq
  rw [recoveredView, Database.view, Database.layers]
  apply view_congr
  rw [← hnewest]
  funext key
  simp only [List.map_append, newest_append, newest_cons, newest_nil, Option.none_or]

/-- The constructor finds the operations in the log, and that of a record that is whole. -/
theorem Restorable.recoverable (h : p.Restorable disk orphan logged) {more : List Op}
    (hmore : ∀ op ∈ more, op.InRange) {log tail : Bytes} (hfind : disk.find? .walLog = some log)
    (hlog : log = encodeOps (logged ++ more) ++ tail) (htail : decodeFrame tail = none) :
  Recoverable disk (p.db.sstables ++ orphan) (logged ++ more)
  where
    opened := openTables_of_holds h.holds h.loaded h.ascending
    valid := h.valid
    inRange := List.forall_mem_append.mpr ⟨h.inRange, hmore⟩
    log := ⟨tail, by rw [hfind, Option.getD_some, hlog], htail⟩

/-- At whatever point the process ends, its directory stands for the operations in the log. -/
theorem Restorable.atRest (h : p.Restorable disk orphan logged)
    (hserving : p.Serving disk (contents ops)) :
  AtRest disk (finished (ops ++ p.writer.complete))
  := by
  obtain ⟨log, hfind, hlogged⟩ := h.log
  have hcounted := hserving.counted
  have hview := h.recoveredView_eq
  -- Nothing behind the records of the operations in the log counts.
  have hsame : ∀ tail : Bytes, log = encodeOps logged ++ tail → decodeFrame tail = none →
      p.db.view = contents ops → AtRest disk (finished ops) := by
    intro tail hlog htail hops
    have hrec := h.recoverable (List.forall_mem_nil _) hfind
      (by rw [List.append_nil]; exact hlog) htail
    rw [List.append_nil] at hrec
    exact atRest_finished_iff.mpr ⟨_, _, hrec, hview.trans hops⟩
  -- The record of the call in flight is whole.
  have hnext : ∀ (op : Op) (ops' : List Op), op.InRange → log = encodeOps logged ++ op.encode →
      op.apply p.db.view = contents ops' → AtRest disk (finished ops') := by
    intro op ops' hop hlog hops
    have hrec := h.recoverable (List.forall_mem_singleton.mpr hop) hfind
      (by rw [encodeOps_append, encodeOps_singleton, ← hlog, List.append_nil]) rfl
    refine atRest_finished_iff.mpr ⟨_, _, hrec, ?_⟩
    rw [recoveredView_concat, hview, hops]
  cases hw : p.writer with
  | idle =>
      rw [hw] at hcounted hlogged
      rw [Writer.complete, List.append_nil]
      exact hsame [] (by rw [List.append_nil]; exact hlogged) rfl hcounted
  | appending op rest =>
      rw [hw] at hcounted hlogged
      obtain ⟨hop, written, hsplit, hlog⟩ := hlogged
      by_cases hrest : rest = []
      · subst hrest
        rw [List.append_nil] at hsplit
        apply hnext op _ hop (by rw [hlog, hsplit])
        rw [hcounted.2, Writer.complete, contents_concat]
      · rw [Writer.complete_appending hrest, List.append_nil]
        exact hsame written hlog (op.decodeFrame_prefix hop hsplit hrest) hcounted.2
  | applying op =>
      rw [hw] at hcounted hlogged
      rw [Writer.complete, List.append_nil]
      exact hnext op ops hlogged.1 hlogged.2 hcounted.2.symm
  | flushing op file =>
      rw [hw] at hcounted hlogged
      rw [Writer.complete, List.append_nil]
      exact hsame [] (by rw [List.append_nil]; exact hlogged) rfl hcounted
  | resetting op =>
      rw [hw] at hcounted hlogged
      rw [Writer.complete, List.append_nil]
      exact hsame [] (by rw [List.append_nil]; exact hlogged) rfl hcounted

/-! ### Steps of the writer -/

/-- A change of the writer that keeps the tables. -/
theorem Restorable.setWriter (h : p.Restorable disk orphan logged) {db : Database} {w : Writer}
    (hsst : db.sstables = p.db.sstables) (hnext : db.nextSstableNumber = p.db.nextSstableNumber)
    (hdisk : ∀ n, disk'.find? (.sst n) = disk.find? (.sst n))
    (hlisted : ∀ op, w = .resetting op → orphan = []) (hin : ∀ op ∈ logged', op.InRange)
    (hlog : ∃ log, disk'.find? .walLog = some log ∧ w.Logged logged' log)
    (hrestores : Restores (p.db.sstables.map SSTableReader.layer)
      (newest (orphan.map SSTableReader.layer)) (memTableOf logged').entries.layer
      db.memtable.entries.layer) :
  ({ p with db := db, writer := w } : Process).Restorable disk' orphan logged'
  where
    holds := by
      rw [hsst]
      exact h.holds.congr hdisk
    ascending := by
      rw [hsst]
      exact h.ascending
    loaded := by
      rw [hsst]
      exact h.loaded
    valid := by
      rw [hsst]
      exact h.valid
    number := by
      rw [hnext]
      exact h.number
    listed := hlisted
    inRange := hin
    log := hlog
    restores := by
      rw [hsst]
      exact hrestores

/-- A table of the MemTable takes the place of the orphan. -/
theorem Restorable.renamed (h : p.Restorable disk orphan logged) (hserving : p.Serving disk m)
    {r : SSTableReader} (hvalid : r.Valid) (hloaded : r.Loaded)
    (hpath : r.path = p.db.nextSstableNumber)
    (htmp : disk.find? (.tmp p.db.nextSstableNumber) = some r.contents) :
  Holds ((Syscall.rename (.tmp p.db.nextSstableNumber) (.sst p.db.nextSstableNumber)).exec disk)
      (p.db.sstables ++ [r])
    ∧ (p.db.sstables ++ [r]).Pairwise (fun a b => a.path < b.path)
    ∧ (∀ r' ∈ p.db.sstables ++ [r], r'.Loaded) ∧ ∀ r' ∈ p.db.sstables ++ [r], r'.Valid
  := by
  have hlt : ∀ r' ∈ p.db.sstables, r'.path < r.path := by
    rw [hpath]
    exact hserving.below
  refine ⟨?_, ?_, ?_, ?_⟩
  · rw [← hpath] at htmp ⊢
    apply h.holds.replace (fun r' hr' => (hlt r' hr').ne) _ htmp
    rw [hpath]
    exact h.number
  · apply List.pairwise_append.mpr
    refine ⟨(List.pairwise_append.mp h.ascending).1, List.pairwise_singleton _ _, ?_⟩
    intro r' hr' r'' hr''
    rw [List.mem_singleton.mp hr'']
    exact hlt r' hr'
  · rw [List.forall_mem_append, List.forall_mem_singleton]
    exact ⟨fun r' hr' => h.loaded r' (List.mem_append_left _ hr'), hloaded⟩
  · rw [List.forall_mem_append, List.forall_mem_singleton]
    exact ⟨hserving.valid, hvalid⟩

/-- The table that a flush has written holds the MemTable. -/
theorem Serving.flushed_layer (h : p.Serving disk m)
    (hholds : FileWrite.synced.Holds disk p.db.nextSstableNumber p.db.memtable.entries) :
  ∃ r, openSSTable ((Syscall.rename (.tmp p.db.nextSstableNumber)
      (.sst p.db.nextSstableNumber)).exec disk) p.db.nextSstableNumber = .ok r
    ∧ r.Valid ∧ r.Loaded ∧ r.path = p.db.nextSstableNumber
    ∧ disk.find? (.tmp p.db.nextSstableNumber) = some r.contents
    ∧ r.layer = p.db.memtable.entries.layer
  := by
  obtain ⟨contents, htmp, hwrite⟩ := hholds
  obtain ⟨t, hentries, hload⟩ := load_of_inRange h.inRange hwrite p.db.nextSstableNumber
  obtain ⟨hpath, hcontents⟩ := SSTableReader.load_eq_ok hload
  refine ⟨_, (openSSTable_rename htmp).trans hload, t.valid_reader _,
    SSTableReader.loaded_of_load hload, hpath, ?_, ?_⟩
  · rw [htmp, hcontents]
  · rw [t.layer_reader, hentries]

/-- What the log has and the MemTable has after an update of both. -/
theorem restores_apply {tables : List (Bytes → Option Entry)} {stray : Bytes → Option Entry}
    {m : MemTable} (h : Restores tables stray (memTableOf logged).entries.layer m.entries.layer)
    (op : Op) :
  Restores tables stray (memTableOf (logged ++ [op])).entries.layer (m.apply op).entries.layer
  := by
  rw [memTableOf_concat]
  have hlayer : ∀ (m' : MemTable) (k : Bytes), k ≠ op.key →
      (m'.apply op).entries.layer k = m'.entries.layer k := by
    intro m' k hk
    rw [MemTable.layer_apply, if_neg (Ne.symm hk)]
  have hentry : ∀ m' : MemTable, (m'.apply op).entries.layer op.key = some op.entry := by
    intro m'
    rw [MemTable.layer_apply, if_pos rfl]
  exact h.update (hentry _) (hentry _) (hlayer _) (hlayer _)

/-- The MemTable takes up the operation whose record is in the log. -/
theorem Restorable.applied (h : p.Restorable disk orphan logged) {op : Op} {w : Writer}
    (hw : p.writer = .applying op) (hlisted : ∀ op', w ≠ .resetting op')
    (hlog : ∀ log, log = encodeOps (logged ++ [op]) → w.Logged (logged ++ [op]) log) :
  ({ p with db.memtable := p.db.memtable.apply op, writer := w } : Process).Restorable disk orphan
    (logged ++ [op])
  := by
  obtain ⟨log, hfind, hlogged⟩ := h.log
  rw [hw] at hlogged
  obtain ⟨hop, hwritten⟩ := hlogged
  refine h.setWriter rfl rfl (fun n => rfl) ?_ ?_ ?_ (restores_apply h.restores op)
  · intro op' hw'
    exact absurd hw' (hlisted op')
  · exact List.forall_mem_append.mpr ⟨h.inRange, List.forall_mem_singleton.mpr hop⟩
  · refine ⟨log, hfind, hlog log ?_⟩
    rw [encodeOps_append, encodeOps_singleton, hwritten]

/-- A step of the writer leaves files that restore the process. -/
theorem Restorable.writerStep (h : p.Restorable disk orphan logged) (hserving : p.Serving disk m)
    (hdisk : disk' = Syscall.execOption c disk) (hstep : p.WriterStep disk' c status ended) :
  ∃ q orphan' logged', status = .running q ∧ q.Restorable disk' orphan' logged'
  := by
  obtain ⟨log, hfind, hlogged⟩ := h.log
  have hwriter := hserving.writer
  have hcounted := hserving.counted
  subst hdisk
  cases hstep with
  | @append op written rest hw hne =>
      rw [hw] at hlogged
      obtain ⟨hop, before, hsplit, hlog⟩ := hlogged
      refine ⟨_, orphan, logged, rfl, h.setWriter rfl rfl (fun n => ?_) (by simp) h.inRange ?_
        h.restores⟩
      · apply Syscall.find?_exec_of_notMem
        simp [Syscall.files]
      · refine ⟨log ++ written, ?_, hop, before ++ written, ?_, ?_⟩
        · simp [Syscall.exec, hfind]
        · rw [List.append_assoc, hsplit]
        · rw [hlog, List.append_assoc]
  | @sync op hw =>
      rw [hw] at hlogged
      obtain ⟨hop, written, hsplit, hlog⟩ := hlogged
      rw [List.append_nil] at hsplit
      exact ⟨_, orphan, logged, rfl, h.setWriter rfl rfl (fun n => rfl) (by simp) h.inRange
        ⟨log, hfind, hop, by rw [hlog, hsplit]⟩ h.restores⟩
  | @apply op hw hflush =>
      exact ⟨_, orphan, logged ++ [op], rfl, h.applied hw (by simp) (fun log hlog => hlog)⟩
  | @startFlush op hw hflush =>
      exact ⟨_, orphan, logged ++ [op], rfl, h.applied hw (by simp) (fun log hlog => hlog)⟩
  | @write op file file' c hw hfile =>
      rw [hw] at hlogged
      exact ⟨_, orphan, logged, rfl, h.setWriter rfl rfl (fun n => hfile.find?_exec (by simp))
        (by simp) h.inRange ⟨log, (hfile.find?_exec (by simp)).trans hfind, hlogged⟩ h.restores⟩
  | @rename op r hw hopen =>
      rw [hw] at hlogged hwriter
      obtain ⟨r', hload, hvalid, hloaded, hpath, htmp, hlayer⟩ := hserving.flushed_layer hwriter
      rw [Syscall.execOption_some, hload] at hopen
      obtain rfl : r = r' := (Except.ok.inj hopen).symm
      obtain ⟨hholds, hascending, hall, hallValid⟩ := h.renamed hserving hvalid hloaded hpath htmp
      have hnil : (p.db.pushTable r).sstables ++ [] = p.db.sstables ++ [r] := List.append_nil _
      refine ⟨_, [], logged, rfl, ?_⟩
      constructor
      · rw [hnil]
        exact hholds
      · rw [hnil]
        exact hascending
      · rw [hnil]
        exact hall
      · rw [hnil]
        exact hallValid
      · exact List.forall_mem_nil _
      · exact fun _ _ => rfl
      · exact h.inRange
      · refine ⟨log, ?_, hlogged⟩
        rw [← hfind]
        apply Syscall.find?_exec_of_notMem
        simp [Syscall.files]
      · change Restores ((p.db.sstables ++ [r]).map SSTableReader.layer) (fun _ => none) _ _
        rw [List.map_append, List.map_singleton, hlayer]
        exact h.restores.push
  | @reject op e hw hopen =>
      rw [hw] at hwriter
      obtain ⟨r, hload, -⟩ := hserving.flushed_layer hwriter
      rw [Syscall.execOption_some, hload] at hopen
      simp at hopen
  | @reset op hw =>
      refine ⟨_, orphan, [], rfl, h.setWriter p.db.clearMemtable_sstables
        p.db.clearMemtable_nextSstableNumber (fun n => ?_) (by simp) (List.forall_mem_nil _)
        ⟨[], ?_, rfl⟩ ?_⟩
      · apply Syscall.find?_exec_of_notMem
        simp [Syscall.files]
      · simp [Syscall.exec, hfind]
      · rw [h.listed op hw, p.db.clearMemtable_memtable]
        exact .refl _ _

/-- A flush that fails, wherever it does, leaves files that restore the process. -/
theorem Restorable.writerFail (h : p.Restorable disk orphan logged) (hserving : p.Serving disk m)
    (hdisk : disk' = Syscall.execOption c disk)
    (happend : ∀ op rest, p.writer ≠ .appending op rest) (hfail : p.WriterFail c status ended) :
  ∃ q orphan' logged', status = .running q ∧ q.Restorable disk' orphan' logged'
  := by
  obtain ⟨log, hfind, hlogged⟩ := h.log
  have hwriter := hserving.writer
  subst hdisk
  cases hfail with
  | append hw hc => exact absurd hw (happend _ _)
  | @flush op file c hw hc =>
      rw [hw] at hlogged hwriter
      have hkeep : ∀ disk' : DbDisk, (∀ n, disk'.find? (.sst n) = disk.find? (.sst n)) →
          disk'.find? .walLog = disk.find? .walLog →
          ({ p with writer := .idle } : Process).Restorable disk' orphan logged := by
        intro disk' hsst hlog
        exact h.setWriter rfl rfl hsst (by simp) h.inRange ⟨log, hlog.trans hfind, hlogged⟩
          h.restores
      obtain rfl | rfl := hc
      · exact ⟨_, orphan, logged, rfl, hkeep _ (fun n => rfl) rfl⟩
      · cases hmove : file.move p.db.nextSstableNumber 0 with
        | none => exact ⟨_, orphan, logged, rfl, hkeep _ (fun n => rfl) rfl⟩
        | some move =>
            obtain ⟨call, after⟩ := move
            rw [Option.map_some, Syscall.execOption_some]
            cases after with
            | some file' =>
                have hstep := FileWrite.step_of_move hmove
                exact ⟨_, orphan, logged, rfl, hkeep _ (fun n => hstep.find?_exec (by simp))
                  (hstep.find?_exec (by simp))⟩
            | none =>
                -- The table is renamed, and its number is not used up.
                obtain ⟨rfl, rfl⟩ := FileWrite.eq_synced_of_move hmove
                obtain ⟨r, -, hvalid, hloaded, hpath, htmp, hlayer⟩ :=
                  hserving.flushed_layer hwriter
                obtain ⟨hholds, hascending, hall, hallValid⟩ :=
                  h.renamed hserving hvalid hloaded hpath htmp
                refine ⟨_, [r], logged, rfl, hholds, hascending, hall, hallValid, ?_, by simp,
                  h.inRange, ⟨log, ?_, hlogged⟩, ?_⟩
                · rw [List.forall_mem_singleton]
                  exact hpath
                · rw [← hfind]
                  apply Syscall.find?_exec_of_notMem
                  simp [Syscall.files]
                · have hstray : newest ([r].map SSTableReader.layer)
                      = p.db.memtable.entries.layer := by
                    funext key
                    rw [List.map_singleton, newest_cons, newest_nil, Option.none_or, hlayer]
                  rw [hstray]
                  exact h.restores.copy
  | @reset op c hw hc =>
      have hflushed := hserving.flushed
      rw [hw] at hlogged hflushed
      obtain rfl | rfl := hc
      · exact ⟨_, orphan, logged, rfl, h.setWriter rfl rfl (fun n => rfl) (by simp) h.inRange
          ⟨log, hfind, hlogged⟩ h.restores⟩
      · -- The log is empty; the last table has what the MemTable has.
        obtain ⟨older, r, hsst, hlayer⟩ := hflushed
        refine ⟨_, orphan, [], rfl, h.setWriter rfl rfl (fun n => ?_) (by simp)
          (List.forall_mem_nil _) ⟨[], ?_, rfl⟩ ?_⟩
        · apply Syscall.find?_exec_of_notMem
          simp [Syscall.files]
        · simp [Syscall.exec, hfind]
        · rw [h.listed op hw, hsst, List.map_append, List.map_singleton, hlayer]
          exact .truncate _ _

/-- A call begins. -/
theorem Restorable.call (h : p.Restorable disk orphan logged) (hw : p.writer = .idle) {op : Op}
    (hop : op.InRange) :
  ({ p with writer := .appending op op.encode } : Process).Restorable disk orphan logged
  := by
  obtain ⟨log, hfind, hlogged⟩ := h.log
  rw [hw] at hlogged
  apply h.setWriter rfl rfl (fun n => rfl) (by simp) h.inRange _ h.restores
  refine ⟨log, hfind, hop, [], rfl, ?_⟩
  rw [List.append_nil]
  exact hlogged

end Process

/-! ### Opening -/

/-- The process a constructor launches serves the operations, and the files restore it. -/
theorem serving_launch {disk : DbDisk} (disk' : DbDisk) {ops : List Op} {db : Database}
    {log : Bytes} (h : AtRest disk (finished ops)) (hdb : db.Discovered disk)
    (hwf : db.idle.WellFormed disk) (hfind : disk.find? .walLog = some log)
    (hfind' : disk'.find? .walLog = some (log.take (replayLog log).2))
    (hsst : ∀ n, disk'.find? (.sst n) = disk.find? (.sst n)) :
  (db.replay log).idle.Serving disk' (contents ops)
    ∧ ∃ orphan logged, (db.replay log).idle.Restorable disk' orphan logged
  := by
  obtain ⟨readers, absorbed, hrec, hview⟩ := atRest_finished_iff.mp h
  have hlog : (disk.find? .walLog).getD [] = log := by rw [hfind, Option.getD_some]
  obtain ⟨hreaders, hmem, htake⟩ := Database.replay_recoverable hrec hdb hlog
  have hvalid : ∀ r ∈ (db.replay log).idle.db.sstables, r.Valid := by
    change ∀ r ∈ (db.replay log).sstables, r.Valid
    rw [hreaders]
    exact hrec.valid
  constructor
  · refine ⟨hvalid, hwf.below, trivial, trivial, trivial, trivial, ?_, ?_⟩
    · change (db.replay log).memtable.entries.InRange
      rw [hmem]
      exact Process.inRange_memTable hrec.inRange
    · change (db.replay log).view = contents ops
      rw [← hview, Database.view, Database.layers, hreaders, hmem]
      rfl
  · use [], absorbed
    have hnil : (db.replay log).idle.db.sstables ++ [] = db.sstables := List.append_nil _
    constructor
    · rw [hnil]
      exact hwf.holds.congr hsst
    · rw [hnil]
      exact ascending_of_openTables hdb.1
    · rw [hnil]
      exact hwf.loaded
    · rw [List.append_nil]
      exact hvalid
    · exact List.forall_mem_nil _
    · exact fun _ _ => rfl
    · exact hrec.inRange
    · exact ⟨_, hfind', htake⟩
    · change Restores _ _ _ (db.replay log).memtable.entries.layer
      rw [hmem]
      exact .refl _ _

/-! ### Runs without compactions -/

/-- The directory stands for the operations; a constructor has read from it what its position says,
and a running process, which does not compact, serves them. -/
def Status.Restored (status : Status) (disk : DbDisk) (ops : List Op) : Prop :=
  match status with
  | down => AtRest disk (finished ops)
  | failed _ => AtRest disk (finished ops)
  | opening o => o.Means disk (finished ops) ∧ (Status.opening o).WellFormed disk
  | running p =>
      p.compactor = .waiting ∧ p.Serving disk (contents ops)
        ∧ ∃ orphan logged, p.Restorable disk orphan logged

/-- The operation of the call in flight, if its record is written to the log as a whole but not
synced. -/
def Status.complete : Status → List Op
  | running p => p.writer.complete
  | down => []
  | failed _ => []
  | opening _ => []

/-- A step in which every call may fail but those of `Append`, and the process may end, but not one
of the compaction thread. -/
structure StepRestores (s : State) (a : Action) : Prop where
  inRange : a.InRange
  noCompaction : a.noCompaction
  appends : s.InAppend → ∀ late, a ≠ .writerFail late

/-- The steps of the constructor keep what the directory stands for. -/
theorem Opener.restored_step {o : Opener} {disk disk' : DbDisk} {c : Option DbSyscall}
    {status : Status} {calls : List Call} {ops : List Op}
    (h : (Status.opening o).Restored disk ops) (hdisk : disk' = Syscall.execOption c disk)
    (hstep : o.Step disk' c status calls) :
  status.Restored disk' ops
  := by
  obtain ⟨hmeans, hwf⟩ := h
  have hmeans' := (Opener.means_step hmeans hdisk hstep).1
  have hwf' := Opener.wellFormed_step hwf hdisk hstep
  rw [hstep.ended_eq_nil, List.append_nil] at hmeans'
  cases hstep with
  | clean hn => exact ⟨hmeans', hwf'⟩
  | discover hdiscover => exact ⟨hmeans', hwf'⟩
  | reject hdiscover => exact absurd hmeans' id
  | createLog => exact ⟨hmeans', hwf'⟩
  | replayTorn hlog hlt => exact ⟨hmeans', hwf'⟩
  | @replayWhole db log hlog hle =>
      obtain ⟨hrest, hdb, log', hfind⟩ := hmeans
      rw [hdisk] at hlog ⊢
      rw [Syscall.execOption_none, hfind, Option.getD_some] at hlog
      subst hlog
      refine ⟨rfl, serving_launch _ hrest hdb hwf hfind ?_ (fun n => rfl)⟩
      rw [List.take_of_length_le hle]
      exact hfind
  | @truncate db validEnd =>
      obtain ⟨hrest, db₀, log, hdb, hfind, rfl, rfl⟩ := hmeans
      have hdiscovered : db₀.idle.WellFormed disk :=
        Process.WellFormed.setWriter hwf rfl rfl (fun n => rfl) (fun n _ => rfl) trivial
      subst hdisk
      refine ⟨rfl, serving_launch _ hrest hdb hdiscovered hfind ?_ (fun n => ?_)⟩
      · simp [Syscall.exec, hfind]
      · apply Syscall.find?_exec_of_notMem
        simp [Syscall.files]

/-- At whatever point a process ends, its directory stands for the operations in the log. -/
theorem Status.Restored.atRest {status : Status} {disk : DbDisk} {ops : List Op}
    (h : status.Restored disk ops) :
  AtRest disk (finished (ops ++ status.complete))
  := by
  cases status with
  | down =>
      change AtRest disk (finished (ops ++ []))
      rw [List.append_nil]
      exact h
  | failed e =>
      change AtRest disk (finished (ops ++ []))
      rw [List.append_nil]
      exact h
  | opening o =>
      change AtRest disk (finished (ops ++ []))
      rw [List.append_nil]
      exact h.1.1
  | running p =>
      obtain ⟨-, hserving, orphan, logged, hrestorable⟩ := h
      exact hrestorable.atRest hserving

theorem landed_kill (s : State) :
  landed s .kill = s.status.complete
  := by
  cases hs : s.status with
  | running p => simp only [landed, hs, Status.complete]
  | _ => simp only [landed, hs, Status.complete]

/-- The constructor is called on a directory that stands for operations. -/
theorem Status.restored_start {disk : DbDisk} {ops : List Op} (h : AtRest disk (finished ops))
    (thr : UInt64) (trig : ℕ) :
  (Status.opening (.cleaning thr trig (tmpNumbers disk))).Restored disk ops
  := ⟨⟨h, trivial⟩, h.loadable⟩

/-- A step keeps what the directory stands for, with the operation whose record is now in the log
to stay. -/
theorem Status.restored_step {s t : State} {a : Action} {ops : List Op}
    (h : s.status.Restored s.disk ops) (hok : StepRestores s a) (hstep : step s a = some t) :
  t.status.Restored t.disk (ops ++ landed s a)
  := by
  have hin := hok.inRange
  have hquiet := hok.noCompaction
  have hkill := h.atRest
  rw [← landed_kill] at hkill
  obtain ⟨c, calls, hstatus, hdisk, -⟩ := step_any_cases hstep
  have happend := hok.appends
  generalize hs : s.status = status at h hstatus
  generalize t.disk = disk' at hstatus hdisk ⊢
  generalize t.status = status' at hstatus ⊢
  cases hstatus with
  | succeeds hstatus =>
      cases hstatus with
      | start =>
          rw [hdisk, landed_eq_nil (by simp) (by simp), List.append_nil]
          exact restored_start h _ _
      | restart =>
          rw [hdisk, landed_eq_nil (by simp) (by simp), List.append_nil]
          exact restored_start h _ _
      | opener hopener =>
          rw [landed_eq_nil (by simp) (by simp), List.append_nil]
          exact Opener.restored_step h hdisk hopener
      | killOpener =>
          rw [hdisk]
          exact hkill
      | call hw =>
          obtain ⟨hwaiting, hserving, orphan, logged, hrestorable⟩ := h
          rw [hdisk, landed_eq_nil (by simp) (by simp), List.append_nil]
          exact ⟨hwaiting, hserving.call hw hin, orphan, logged, hrestorable.call hw hin⟩
      | @writer p count c status calls hwriter =>
          obtain ⟨hwaiting, hserving, orphan, logged, hrestorable⟩ := h
          have hlanded : landed s (.writer count) = p.writer.complete := by simp only [landed, hs]
          obtain ⟨q, rfl, hcompactor, hserving'⟩ := hserving.writerStep hdisk hwriter
          obtain ⟨q', orphan', logged', hq', hrestorable'⟩ :=
            hrestorable.writerStep hserving hdisk hwriter
          obtain rfl := Status.running.inj hq'
          rw [hlanded]
          refine ⟨hcompactor.trans hwaiting, ?_, orphan', logged', hrestorable'⟩
          rw [contents_append]
          exact hserving'
      | compactor hcompactor => simp [Action.noCompaction] at hquiet
      | @close p hw hc =>
          obtain ⟨-, hserving, orphan, logged, hrestorable⟩ := h
          have hrest := hrestorable.atRest hserving
          rw [hw, Writer.complete] at hrest
          rw [hdisk, landed_eq_nil (by simp) (by simp)]
          exact hrest
      | kill =>
          rw [hdisk]
          exact hkill
  | keepLeftover =>
      rw [hdisk, landed_eq_nil (by simp) (by simp), List.append_nil]
      exact h
  | openerFail =>
      rw [hdisk, landed_eq_nil (by simp) (by simp), List.append_nil]
      exact h.1.1
  | @writerFail p late c status calls hfail =>
      obtain ⟨hwaiting, hserving, orphan, logged, hrestorable⟩ := h
      have hnot : ∀ op rest, p.writer ≠ .appending op rest :=
        fun op rest hw => happend ⟨p, op, rest, hs, hw⟩ late rfl
      obtain ⟨q, rfl, hcompactor, hserving'⟩ := hserving.writerFail hdisk hfail
      obtain ⟨q', orphan', logged', hq', hrestorable'⟩ :=
        hrestorable.writerFail hserving hdisk hnot hfail
      obtain rfl := Status.running.inj hq'
      rw [landed_eq_nil (by simp) (by simp), List.append_nil]
      exact ⟨hcompactor.trans hwaiting, hserving', orphan', logged', hrestorable'⟩
  | compactorFail hfail =>
      -- The thread waits, and makes no call.
      have hwaiting := h.1
      cases hfail with
      | write hc hcall => simp [hc] at hwaiting
      | unlink hc => simp [hc] at hwaiting

/-! ### Runs -/

/-- The machine, with the operations in the log. -/
def stepLanded (x : State × List Op) (a : Action) : Option (State × List Op) :=
  (step x.1 a).map (fun t => (t, x.2 ++ landed x.1 a))

theorem stepLanded_eq_some {x y : State × List Op} {a : Action} (h : stepLanded x a = some y) :
  step x.1 a = some y.1 ∧ y.2 = x.2 ++ landed x.1 a
  := by
  obtain ⟨t, ht, rfl⟩ := Option.map_eq_some_iff.mp h
  exact ⟨ht, rfl⟩

theorem reaches_of_landed {x y : State × List Op}
    (h : Reaches stepLanded (fun x a _ => StepRestores x.1 a) x y) :
  Reaches step (fun _ a _ => a.InRange) x.1 y.1
  := by
  induction h with
  | refl => exact .refl
  | tail a _ hstep hok ih => exact .tail a ih (stepLanded_eq_some hstep).1 hok.inRange

theorem Process.Serving.answers {p : Process} {disk : DbDisk} {m : Bytes → Option Bytes}
    (h : p.Serving disk m) (hw : p.writer = .idle) :
  p.db.Answers m
  := by
  have hcounted := h.counted
  rw [hw] at hcounted
  exact Database.answers_of_view h.valid hcounted

/-- A process that answers for a map between its calls serves it. -/
theorem Process.Serving.of_answers {p : Process} {disk : DbDisk} {m m' : Bytes → Option Bytes}
    (h : p.Serving disk m) (hw : p.writer = .idle) (hm : p.db.Answers m') :
  p.Serving disk m'
  := by
  have hsame : m' = m := by
    funext key
    have hget := (h.answers hw).1 key
    rw [hm.1 key] at hget
    exact Except.ok.inj hget
  rw [hsame]
  exact h

theorem State.Serving.of_reaches {s : State} {m : Bytes → Option Bytes} {y : State × List Op}
    (h : s.Serving m) (hy : Reaches stepLanded (fun x a _ => StepServes x.1 a) (s, []) y) :
  y.1.Serving (applyAll m y.2)
  := by
  apply hy.invariant (I := fun y => y.1.Serving (applyAll m y.2)) h
  intro x a y hx hstep hok
  obtain ⟨hstep, hops⟩ := stepLanded_eq_some hstep
  rw [hops, applyAll_append]
  exact hx.step hok hstep

theorem Status.restored_of_reaches {z : State × List Op}
    (h : Reaches stepLanded (fun x a _ => StepRestores x.1 a) (State.init, []) z) :
  z.1.status.Restored z.1.disk z.2
  := by
  apply h.invariant (I := fun z => z.1.status.Restored z.1.disk z.2)
  · exact atRest_empty
  · intro x a y hx hstep hok
    obtain ⟨hstep, hops⟩ := stepLanded_eq_some hstep
    rw [hops]
    exact Status.restored_step hx hok hstep

/-- Whatever calls fail, a process that answers for some map goes on to answer for it with the
operations that are added to the log, also while tables are compacted; and where none are compacted
and no append fails, the process answers for the operations in the log, and so does a database opened
on the directory at any point. -/
theorem failed_flush_loses_nothing {s : State} {p : Process} {m : Bytes → Option Bytes}
    {y z : State × List Op} (hs : Reaches step (fun _ a _ => a.InRange) State.init s)
    (hp : s.status = .running p) (hw : p.writer = .idle) (hm : p.db.Answers m)
    (hy : Reaches stepLanded (fun x a _ => StepServes x.1 a) (s, []) y)
    (hz : Reaches stepLanded (fun x a _ => StepRestores x.1 a) (State.init, []) z) :
  (∀ q, y.1.status = .running q → q.writer = .idle → q.db.Answers (applyAll m y.2))
    ∧ (∀ q, z.1.status = .running q → q.writer = .idle → q.db.Answers (contents z.2))
    ∧ ∀ thr trig, ∃ db disk, Database.construct thr trig z.1.disk = .ok (db, disk)
      ∧ db.Answers (contents (z.2 ++ z.1.status.complete))
  := by
  refine ⟨?_, ?_, ?_⟩
  · intro q hq hwq
    have hstart : s.Serving m := by
      intro p' hp'
      rw [hp, Status.running.injEq] at hp'
      subst hp'
      have hserves := Status.serves_of_reaches hs
      rw [hp] at hserves
      obtain ⟨-, m', hserving⟩ := hserves
      exact hserving.of_answers hw hm
    exact (hstart.of_reaches hy q hq).answers hwq
  · intro q hq hwq
    have hrestored := Status.restored_of_reaches hz
    rw [hq] at hrestored
    exact hrestored.2.1.answers hwq
  · intro thr trig
    exact answers_of_atRest (Status.restored_of_reaches hz).atRest thr trig

/-- A step in which neither a call of `Append` fails nor the compaction thread moves. -/
def State.restores (s : State) (a : Action) : Bool :=
  decide a.InRange && a.noCompaction &&
    match s.status, a with
    | .running p, .writerFail _ =>
        match p.writer with
        | .appending _ _ => false
        | _ => true
    | _, _ => true

theorem stepRestores_of_restores {s : State} {a : Action} (h : s.restores a = true) :
  StepRestores s a
  := by
  simp only [State.restores, Bool.and_eq_true, decide_eq_true_eq] at h
  obtain ⟨⟨hin, hquiet⟩, happends⟩ := h
  refine ⟨hin, hquiet, ?_⟩
  rintro ⟨p, op, rest, hp, hw⟩ late rfl
  simp [hp, hw] at happends

/-- Two flushes, and a third one that fails once its table is renamed. -/
def orphanRun : List Action :=
  [launchActions 0 2, flushActions (.put [97] [1]) 52, flushActions (.remove [97]) 51,
    (flushActions (.put [98] [1]) 52).dropLast.dropLast, [.writerFail true]].flatten

/-- A compaction of the two tables that are listed takes the number of the third, and a `put` flushes
the MemTable. -/
def retryRun : List Action :=
  [[.compactor 0, .compactor 0, .compactor 0], compactActions 24,
    flushActions (.put [99] [1]) 67].flatten

/-- A process runs, between its calls. -/
def State.between (s : State) : Bool :=
  match s.status with
  | .running p => p.unlocked
  | _ => false

theorem State.between_iff {s : State} :
  s.between = true ↔ ∃ p, s.status = .running p ∧ p.writer = .idle
  := by
  rw [State.between]
  cases s.status with
  | running p => simp [Process.unlocked_iff]
  | _ => simp

/-- The compaction overwrites the table that the failed flush has renamed. -/
theorem failed_flush_loses_nothing_overwritten :
  ∃ z p y q, run (guarded stepLanded (fun x a => x.1.restores a)) (State.init, []) orphanRun = some z
    ∧ z.1.status = .running p ∧ p.db.Answers (contents z.2)
    ∧ run (guarded stepLanded (fun x a => x.1.isRunning && decide a.InRange)) (z.1, []) retryRun
      = some y
    ∧ y.1.status = .running q ∧ q.db.Answers (applyAll (contents z.2) y.2)
  := by
  have hrun : (run (guarded stepLanded (fun x a => x.1.restores a)) (State.init, []) orphanRun).any
      (fun z => z.1.between
        && (run (guarded stepLanded (fun x a => x.1.isRunning && decide a.InRange)) (z.1, [])
          retryRun).any (fun y => y.1.between)) = true := by
    decide +kernel
  obtain ⟨z, hz, htest⟩ := exists_of_run hrun
  rw [Bool.and_eq_true] at htest
  obtain ⟨p, hp, hw⟩ := State.between_iff.mp htest.1
  obtain ⟨y, hy, hbetween⟩ := exists_of_run htest.2
  obtain ⟨q, hq, hwq⟩ := State.between_iff.mp hbetween
  have hreach : Reaches stepLanded (fun x a _ => StepRestores x.1 a) (State.init, []) z :=
    Reaches.of_run hz (fun _ _ _ ha => stepRestores_of_restores ha)
  have hserves : Reaches stepLanded (fun x a _ => StepServes x.1 a) (z.1, []) y := by
    apply Reaches.of_run hy
    intro x a _ ha
    rw [Bool.and_eq_true, decide_eq_true_iff] at ha
    exact ⟨State.isRunning_iff.mp ha.1, ha.2⟩
  have hrestored := Status.restored_of_reaches hreach
  rw [hp] at hrestored
  have hanswers := hrestored.2.1.answers hw
  refine ⟨z, p, y, q, hz, hp, hanswers, hy, hq, ?_⟩
  exact (failed_flush_loses_nothing (reaches_of_landed hreach) hp hw hanswers hserves hreach).1 q hq
    hwq

end TinyLsm
