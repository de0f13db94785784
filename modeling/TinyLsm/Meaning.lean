import TinyLsm.WellFormed

/-!
# What a process means

The semantic invariant of a process: its tables are readers of tables, the log holds the
operations the MemTable has absorbed, and the map the database stands for is that of the
calls made so far (`Process.Means`).  No step of a flush or of a compaction changes this
map.
-/

namespace TinyLsm

open FileSystem Layers

/-! ### Compactions -/

/-- The layer a compaction of these tables writes. -/
def mergedLayer (toCompact : List SSTableReader) : Bytes → Option Entry :=
  merged Entry.live (toCompact.map SSTableReader.layer)

/-- What a compaction writes reads like the merged layer. -/
theorem layer_of_compactedEntries {toCompact : List SSTableReader} {m : EntryMap}
    (h : ∀ r ∈ toCompact, r.Valid) (hmerge : Database.compactedEntries toCompact = .ok m) :
  m.layer = mergedLayer toCompact
  := by
  obtain ⟨m', hmerge', hlayer⟩ := compactedEntries_eq h
  rw [hmerge] at hmerge'
  obtain rfl := Except.ok.inj hmerge'
  exact hlayer

/-- What the compaction thread has merged. -/
def Compactor.Merges (c : Compactor) (db : Database) : Prop :=
  match c with
  | allocating toCompact m => m.layer = mergedLayer toCompact
  | writing toCompact m _ _ => m.layer = mergedLayer toCompact
  | swapping toCompact compacted => compacted.layer = mergedLayer toCompact
  | deleting old =>
      ∃ dropped compacted later, db.sstables = compacted :: later
        ∧ compacted.layer = mergedLayer (dropped ++ old)
  | _ => True

/-- The tables on disk are read, in the order of their age, like the tables listed. -/
theorem Process.view_generations {p : Process} {disk : DbDisk} (h : p.WellFormed disk)
    (hmerges : p.compactor.Merges p.db) :
  view Entry.live (p.generations.map SSTableReader.layer ++ [p.db.memtable.entries.layer])
    = p.db.view
  := by
  have hcompactor := h.compactor
  rw [Database.view, Database.layers, generations]
  cases hc : p.compactor with
  | swapping toCompact compacted =>
      simp only [hc, Compactor.WellFormed, Compactor.Merges] at hcompactor hmerges
      obtain ⟨⟨rest, hrest⟩, -⟩ := hcompactor
      simp only [← hrest, List.drop_left, List.map_append, List.map_cons, List.append_assoc,
        List.cons_append]
      apply view_congr
      rw [hmerges]
      apply newest_insert_merged
  | deleting old =>
      simp only [hc, Compactor.Merges] at hmerges
      obtain ⟨dropped, compacted, later, hsst, hlayer⟩ := hmerges
      have hkept := view_drop_merged Entry.live (dropped.map SSTableReader.layer)
        (old.map SSTableReader.layer)
        (later.map SSTableReader.layer ++ [p.db.memtable.entries.layer])
      have hall := view_drop_merged Entry.live ((dropped ++ old).map SSTableReader.layer) []
        (later.map SSTableReader.layer ++ [p.db.memtable.entries.layer])
      simp only [List.append_nil, List.nil_append, List.map_append] at hall
      simp only [hsst, List.map_append, List.map_cons, List.append_assoc, List.cons_append,
        hlayer, mergedLayer]
      rw [hkept, hall]
  | _ => rfl

/-! ### The log -/

/-- The log of a process whose MemTable has absorbed `ops`: a record that is being appended
follows the records of these. -/
def Writer.Logged (w : Writer) (ops : List Op) (log : Bytes) : Prop :=
  match w with
  | appending op rest =>
      op.InRange ∧ ∃ written, written ++ rest = op.encode ∧ log = encodeOps ops ++ written
  | applying op => op.InRange ∧ log = encodeOps ops ++ op.encode
  | _ => log = encodeOps ops

/-- The operation the MemTable has absorbed for a call that has not returned. -/
def Writer.applied : Writer → List Op
  | flushing op _ => [op]
  | resetting op => [op]
  | _ => []

/-- The last table holds the MemTable that is about to be cleared. -/
def Writer.Flushed (w : Writer) (db : Database) : Prop :=
  match w with
  | resetting _ =>
      ∃ older r, db.sstables = older ++ [r] ∧ r.layer = db.memtable.entries.layer
  | _ => True

/-- The database stands for the calls made so far. -/
structure Process.Means (p : Process) (disk : DbDisk) (calls : List Call) : Prop where
  valid : ∀ r ∈ p.generations, r.Valid
  merges : p.compactor.Merges p.db
  flushed : p.writer.Flushed p.db
  logged : ∃ ops, (∀ op ∈ ops, op.InRange) ∧ p.db.memtable = memTableOf ops
    ∧ ∃ log, disk.find? .walLog = some log ∧ p.writer.Logged ops log
  view : ∃ ops, Resolves calls ops ∧ p.db.view = contents (ops ++ p.writer.applied)

namespace Process

variable {p : Process} {disk disk' : DbDisk} {c : Option DbSyscall} {status : Status}
  {calls ended : List Call}

/-- The entries a process writes to a table are in range. -/
theorem inRange_memTable {ops : List Op} (h : ∀ op ∈ ops, op.InRange) :
  EntryMap.InRange (memTableOf ops).entries
  := by
  rintro ⟨key, entry⟩ he
  exact inRange_memTableOf h (OrderedMap.mem_entries.mp he)

/-- The table a flush has renamed reads like the MemTable. -/
theorem Means.flushed_layer (hm : p.Means disk calls) {n : ℕ} {contents : Bytes}
    (hwrite : writeSSTable p.db.memtable.entries = .ok contents) {r : SSTableReader}
    (hload : SSTableReader.load n contents = .ok r) :
  r.Valid ∧ r.layer = p.db.memtable.entries.layer
  := by
  obtain ⟨ops, hin, hmem, -⟩ := hm.logged
  obtain ⟨t, hentries, htable⟩ := load_of_inRange (by rw [hmem]; exact inRange_memTable hin)
    hwrite n
  rw [hload] at htable
  obtain rfl := Except.ok.inj htable
  constructor
  · exact t.valid_reader n
  · rw [t.layer_reader, hentries]

/-- A flush in range is accepted. -/
theorem Means.flushAccepted (h : p.WellFormed disk) (hm : p.Means disk calls) :
  p.FlushAccepted
  := by
  intro op hw
  have hwriter := h.writer
  rw [hw] at hwriter
  obtain ⟨written, -, hwrite⟩ := hwriter
  obtain ⟨ops, hin, hmem, -⟩ := hm.logged
  obtain ⟨t, -, hload⟩ := load_of_inRange (by rw [hmem]; exact inRange_memTable hin) hwrite
    p.db.nextSstableNumber
  rw [eq_sstableFile hwrite] at hload
  exact ⟨_, hload⟩

/-- The table a flush has renamed is opened. -/
theorem Means.openSSTable_eq_ok (h : p.WellFormed disk) (hm : p.Means disk calls) {op : Op}
    (hw : p.writer = .flushing op .synced) :
  ∃ r, openSSTable ((Syscall.rename (.tmp p.db.nextSstableNumber)
    (.sst p.db.nextSstableNumber)).exec disk) p.db.nextSstableNumber = .ok r
  := by
  have hwriter := h.writer
  rw [hw] at hwriter
  obtain ⟨contents, htmp, hwrite⟩ := hwriter
  obtain ⟨r, hr⟩ := hm.flushAccepted h op hw
  rw [openSSTable_rename htmp, eq_sstableFile hwrite]
  exact ⟨r, hr⟩

/-- Clearing a MemTable that the last table holds leaves the view. -/
theorem view_clearMemtable {db : Database} {older : List SSTableReader} {r : SSTableReader}
    (hsst : db.sstables = older ++ [r]) (hr : r.layer = db.memtable.entries.layer) :
  db.clearMemtable.view = db.view
  := by
  have hclear : db.clearMemtable.layers
      = db.sstables.map SSTableReader.layer ++ [fun _ => none] := by
    rw [Database.layers, db.clearMemtable_sstables, db.clearMemtable_memtable]
    rfl
  rw [Database.view, Database.view, hclear, Database.layers]
  apply view_congr
  rw [newest_concat_empty, hsst, List.map_append, List.map_singleton, hr, newest_concat_twice]

/-- Pushing a table that holds the MemTable leaves the view. -/
theorem view_pushTable {db : Database} {r : SSTableReader}
    (hr : r.layer = db.memtable.entries.layer) :
  (db.pushTable r).view = db.view
  := by
  rw [Database.view, Database.view, Database.layers, Database.layers]
  apply view_congr
  simp only [Database.pushTable, List.map_append, List.map_singleton, hr]
  apply newest_concat_twice

/-! ### Steps of the writer -/

theorem Means.setWriter (hm : p.Means disk calls) {db : Database} {w : Writer}
    (hsst : db.sstables = p.db.sstables) (hflushed : w.Flushed db)
    (hlogged : ∃ ops, (∀ op ∈ ops, op.InRange) ∧ db.memtable = memTableOf ops
      ∧ ∃ log, disk'.find? .walLog = some log ∧ w.Logged ops log)
    (hview : ∃ ops, Resolves (calls ++ ended) ops ∧ db.view = contents (ops ++ w.applied)) :
  ({ p with db := db, writer := w } : Process).Means disk' (calls ++ ended)
  := by
  have hgen : ({ p with db := db, writer := w } : Process).generations = p.generations := by
    simp only [generations, hsst]
  constructor
  · rw [hgen]
    exact hm.valid
  · have hmerges := hm.merges
    simp only [Compactor.Merges, hsst] at hmerges ⊢
    exact hmerges
  · exact hflushed
  · exact hlogged
  · exact hview

/-- The MemTable takes up the operation whose record is in the log. -/
theorem logged_apply {absorbed : List Op} {op : Op} {m : MemTable} {log : Bytes} {w : Writer}
    (hin : ∀ op ∈ absorbed, op.InRange) (hop : op.InRange) (hmem : m = memTableOf absorbed)
    (hfind : disk.find? .walLog = some log) (hlog : log = encodeOps absorbed ++ op.encode)
    (hw : ∀ ops log, log = encodeOps ops → w.Logged ops log) :
  ∃ ops, (∀ op ∈ ops, op.InRange) ∧ m.apply op = memTableOf ops
    ∧ ∃ log, disk.find? .walLog = some log ∧ w.Logged ops log
  := by
  refine ⟨absorbed ++ [op], ?_, ?_, log, hfind, hw _ _ ?_⟩
  · exact List.forall_mem_append.mpr ⟨hin, List.forall_mem_singleton.mpr hop⟩
  · rw [memTableOf_concat, ← hmem]
  · rw [encodeOps_append, encodeOps_singleton, hlog]

/-- Applying an operation to the MemTable applies it to the view. -/
theorem view_applied (db : Database) (op : Op) :
  ({ db with memtable := db.memtable.apply op } : Database).view = op.apply db.view
  := view_apply _ _ _

/-- A step of the writer keeps what the process means. -/
theorem Means.writerStep (h : p.WellFormed disk) (hm : p.Means disk calls)
    (hdisk : disk' = Syscall.execOption c disk) (hstep : p.WriterStep disk' c status ended) :
  ∃ p', status = .running p' ∧ p'.Means disk' (calls ++ ended)
  := by
  obtain ⟨absorbed, hin, hmem, log, hfind, hlogged⟩ := hm.logged
  obtain ⟨ops, hresolves, hview⟩ := hm.view
  subst hdisk
  cases hstep with
  | @append op written rest hw hne =>
      simp only [hw, Writer.Logged, Writer.applied] at hlogged hview
      obtain ⟨hop, before, hsplit, hlog⟩ := hlogged
      refine ⟨_, rfl, hm.setWriter rfl trivial ?_ ?_⟩
      · use absorbed, hin, hmem, log ++ written
        constructor
        · simp [Syscall.exec, hfind]
        · refine ⟨hop, before ++ written, ?_, ?_⟩
          · rw [List.append_assoc, hsplit]
          · rw [hlog, List.append_assoc]
      · rw [List.append_nil]
        exact ⟨ops, hresolves, hview⟩
  | @sync op hw =>
      simp only [hw, Writer.Logged, Writer.applied] at hlogged hview
      obtain ⟨hop, written, hsplit, hlog⟩ := hlogged
      rw [List.append_nil] at hsplit
      refine ⟨_, rfl, hm.setWriter rfl trivial ?_ ?_⟩
      · exact ⟨absorbed, hin, hmem, log, hfind, hop, by rw [hlog, hsplit]⟩
      · rw [List.append_nil]
        exact ⟨ops, hresolves, hview⟩
  | @apply op hw hflush =>
      simp only [hw, Writer.Logged, Writer.applied, List.append_nil] at hlogged hview
      obtain ⟨hop, hlog⟩ := hlogged
      refine ⟨_, rfl, hm.setWriter rfl trivial ?_ ?_⟩
      · exact logged_apply hin hop hmem hfind hlog (fun _ _ hlog => hlog)
      · use ops ++ [op]
        constructor
        · exact .counted ⟨op, .returned⟩ hresolves rfl
        · rw [view_applied, hview]
          simp [Writer.applied]
  | @startFlush op hw hflush =>
      simp only [hw, Writer.Logged, Writer.applied, List.append_nil] at hlogged hview
      obtain ⟨hop, hlog⟩ := hlogged
      refine ⟨_, rfl, hm.setWriter rfl trivial ?_ ?_⟩
      · exact logged_apply hin hop hmem hfind hlog (fun _ _ hlog => hlog)
      · rw [List.append_nil]
        refine ⟨ops, hresolves, ?_⟩
        rw [view_applied, hview]
        simp [Writer.applied]
  | @write op file file' c hw hfile =>
      simp only [hw, Writer.Logged, Writer.applied] at hlogged hview
      refine ⟨_, rfl, hm.setWriter rfl trivial ?_ ?_⟩
      · exact ⟨absorbed, hin, hmem, log, (hfile.find?_exec (by simp)).trans hfind, hlogged⟩
      · rw [List.append_nil]
        exact ⟨ops, hresolves, hview⟩
  | @rename op r hw hopen =>
      simp only [hw, Writer.Logged, Writer.applied] at hlogged hview
      have hholds := h.writer
      rw [hw] at hholds
      obtain ⟨file, htmp, hwrite⟩ := hholds
      rw [Syscall.execOption_some] at hopen ⊢
      rw [openSSTable_rename htmp] at hopen
      obtain ⟨hvalid, hlayer⟩ := hm.flushed_layer hwrite hopen
      refine ⟨_, rfl, ?_⟩
      constructor
      · rw [generations_pushTable h.compactor]
        intro r' hr'
        rcases List.mem_append.mp hr' with hr' | hr'
        · exact hm.valid r' hr'
        · obtain rfl := List.mem_singleton.mp hr'
          exact hvalid
      · have hmerges := hm.merges
        cases hc : p.compactor with
        | deleting old =>
            simp only [hc, Compactor.Merges, Database.pushTable] at hmerges ⊢
            obtain ⟨dropped, compacted, later, hsst, hcompacted⟩ := hmerges
            exact ⟨dropped, compacted, later ++ [r], by rw [hsst, List.cons_append], hcompacted⟩
        | _ =>
            simp only [hc, Compactor.Merges] at hmerges ⊢
            try exact hmerges
      · exact ⟨p.db.sstables, r, rfl, hlayer⟩
      · refine ⟨absorbed, hin, hmem, log, ?_, hlogged⟩
        rw [← hfind]
        apply Syscall.find?_exec_of_notMem
        simp [Syscall.files]
      · rw [List.append_nil]
        refine ⟨ops, hresolves, ?_⟩
        rw [view_pushTable hlayer, hview]
        rfl
  | @reject op e hw hopen =>
      obtain ⟨r, hr⟩ := hm.openSSTable_eq_ok h hw
      rw [Syscall.execOption_some, hr] at hopen
      simp at hopen
  | @reset op hw =>
      simp only [hw, Writer.Logged, Writer.applied] at hlogged hview
      have hflushed := hm.flushed
      rw [hw] at hflushed
      obtain ⟨older, r, hsst, hlayer⟩ := hflushed
      refine ⟨_, rfl, hm.setWriter p.db.clearMemtable_sstables trivial ?_ ?_⟩
      · refine ⟨[], by simp, p.db.clearMemtable_memtable, [], ?_, rfl⟩
        simp [Syscall.exec, hfind]
      · use ops ++ [op]
        constructor
        · exact .counted ⟨op, .returned⟩ hresolves rfl
        · rw [view_clearMemtable hsst hlayer, hview]
          simp [Writer.applied]

/-! ### Steps of the compaction thread -/

theorem Means.setCompactor (hm : p.Means disk calls) {db : Database} {c : Compactor}
    (hvalid : ∀ r ∈ ({ p with db := db, compactor := c } : Process).generations, r.Valid)
    (hmerges : c.Merges db) (hflushed : p.writer.Flushed db)
    (hmem : db.memtable = p.db.memtable) (hlog : disk'.find? .walLog = disk.find? .walLog)
    (hview : db.view = p.db.view) :
  ({ p with db := db, compactor := c } : Process).Means disk' calls
  := by
  constructor
  · exact hvalid
  · exact hmerges
  · exact hflushed
  · simpa only [hmem, hlog] using hm.logged
  · simpa only [hview] using hm.view

/-- A step of the compaction thread keeps what the process means and the map it stands
for. -/
theorem Means.compactorStep (h : p.WellFormed disk) (hm : p.Means disk calls)
    (hdisk : disk' = Syscall.execOption c disk)
    (hstep : p.CompactorStep disk' c status ended) :
  ∃ p', status = .running p' ∧ p'.Means disk' calls ∧ ended = [] ∧ p'.db.view = p.db.view
  := by
  have hmerges := hm.merges
  have hvalid := hm.valid
  have hflushed := hm.flushed
  have hcompactor := h.compactor
  subst hdisk
  cases hstep with
  | consume hc hreq =>
      rw [generations, hc] at hvalid
      exact ⟨_, rfl, hm.setCompactor hvalid trivial hflushed rfl rfl rfl, rfl, rfl⟩
  | skip hc hw hlen =>
      rw [generations, hc] at hvalid
      exact ⟨_, rfl, hm.setCompactor hvalid trivial hflushed rfl rfl rfl, rfl, rfl⟩
  | snapshot hc hw hlen =>
      rw [generations, hc] at hvalid
      exact ⟨_, rfl, hm.setCompactor hvalid trivial hflushed rfl rfl rfl, rfl, rfl⟩
  | @merge toCompact m hc hmerge =>
      rw [generations, hc] at hvalid
      simp only [hc, Compactor.WellFormed] at hcompactor
      have hlayer :=
        layer_of_compactedEntries (fun r hr => hvalid r (hcompactor.subset hr)) hmerge
      exact ⟨_, rfl, hm.setCompactor hvalid hlayer hflushed rfl rfl rfl, rfl, rfl⟩
  | @mergeFail toCompact e hc hmerge =>
      rw [generations, hc] at hvalid
      simp only [hc, Compactor.WellFormed] at hcompactor
      obtain ⟨m', hmerge', -⟩ :=
        compactedEntries_eq (fun r hr => hvalid r (hcompactor.subset hr))
      simp [hmerge] at hmerge'
  | allocate hc hw =>
      rw [generations, hc] at hvalid
      simp only [hc, Compactor.Merges] at hmerges
      exact ⟨_, rfl, hm.setCompactor hvalid hmerges hflushed rfl rfl rfl, rfl, rfl⟩
  | write hc hfile =>
      rw [generations, hc] at hvalid
      simp only [hc, Compactor.Merges] at hmerges
      exact ⟨_, rfl, hm.setCompactor hvalid hmerges hflushed rfl (hfile.find?_exec (by simp)) rfl,
        rfl, rfl⟩
  | @rename toCompact m n r hc hopen =>
      rw [generations, hc] at hvalid
      simp only [hc, Compactor.Merges, Compactor.WellFormed] at hmerges hcompactor
      obtain ⟨hpre, -, hin, -, -, hholds⟩ := hcompactor
      obtain ⟨t, ht, hload⟩ := openSSTable_written hholds hin
      rw [Syscall.execOption_some] at hopen ⊢
      rw [hload] at hopen
      obtain rfl := Except.ok.inj hopen
      refine ⟨_, rfl, hm.setCompactor ?_ ?_ hflushed rfl ?_ rfl, rfl, rfl⟩
      · intro r' hr'
        simp only [generations, List.mem_append, List.mem_cons] at hr'
        rcases hr' with hr' | rfl | hr'
        · exact hvalid r' (hpre.subset hr')
        · exact t.valid_reader n
        · exact hvalid r' (List.mem_of_mem_drop hr')
      · simp only [Compactor.Merges, t.layer_reader, ht, hmerges]
      · apply Syscall.find?_exec_of_notMem
        simp [Syscall.files]
  | @reject toCompact m n e hc hopen =>
      simp only [hc, Compactor.WellFormed] at hcompactor
      obtain ⟨-, -, hin, -, -, hholds⟩ := hcompactor
      obtain ⟨t, -, hload⟩ := openSSTable_written hholds hin
      rw [Syscall.execOption_some, hload] at hopen
      simp at hopen
  | @swap toCompact r hc hw =>
      simp only [hc, Compactor.Merges, Compactor.WellFormed] at hmerges hcompactor
      have hgen := generations_swapIn hc hcompactor.1
      have htake : p.db.sstables.take toCompact.length = toCompact :=
        (List.prefix_iff_eq_take.mp hcompactor.1).symm
      have hmerges' : (Compactor.deleting (p.db.sstables.take toCompact.length)).Merges
          (p.db.swapIn r toCompact.length) := by
        refine ⟨[], r, p.db.sstables.drop toCompact.length, rfl, ?_⟩
        rw [htake, List.nil_append, hmerges]
      have hview : (p.db.swapIn r toCompact.length).view = p.db.view := by
        have hbefore := view_generations h hm.merges
        have hwf : ({ p with
            db := p.db.swapIn r toCompact.length
            compactor := .deleting (p.db.sstables.take toCompact.length) } : Process).WellFormed
              disk :=
          h.setCompactor hgen rfl rfl (fun n => rfl) rfl trivial
        have hafter := view_generations hwf hmerges'
        rw [hgen] at hafter
        exact hafter.symm.trans hbefore
      refine ⟨_, rfl, hm.setCompactor ?_ hmerges' ?_ rfl rfl hview, rfl, hview⟩
      · rw [hgen]
        exact hvalid
      · rw [hw]
        trivial
  | @unlink r old hc =>
      simp only [hc, Compactor.Merges] at hmerges
      obtain ⟨dropped, compacted, later, hsst, hlayer⟩ := hmerges
      refine ⟨_, rfl, hm.setCompactor ?_ ?_ hflushed rfl ?_ rfl, rfl, rfl⟩
      · intro r' hr'
        apply hvalid
        simp only [generations, hc, List.cons_append] at hr' ⊢
        exact List.mem_cons_of_mem _ hr'
      · refine ⟨dropped ++ [r], compacted, later, hsst, ?_⟩
        rw [hlayer, List.append_assoc, List.singleton_append]
      · apply Syscall.find?_exec_of_notMem
        simp [Syscall.files]
  | deleted hc =>
      rw [generations, hc] at hvalid
      exact ⟨_, rfl, hm.setCompactor hvalid trivial hflushed rfl rfl rfl, rfl, rfl⟩
  | finish hc =>
      rw [generations, hc] at hvalid
      exact ⟨_, rfl, hm.setCompactor hvalid trivial hflushed rfl rfl rfl, rfl, rfl⟩

end Process

end TinyLsm
