import TinyLsm.LengthLimits

/-!
# Numbers of tables

The tables of a running database have distinct numbers below the counter, each with its file
unchanged on disk, and no rename replaces a table (`numbers_distinct`), as long as every
table a flush writes is accepted by `SSTableReader`.  A key of 2^32 bytes makes it reject
one: the file stays, and its number is used again (`not_numbers_below`).
-/

namespace TinyLsm

open FileSystem Transition

/-! ### Numbers -/

/-- No rename of a well-formed process replaces a table. -/
theorem Process.WellFormed.rename_fresh {p : Process} {disk : DbDisk} (h : p.WellFormed disk) :
  (∀ {disk' : DbDisk} {src : FileName} {n : ℕ} {status : Status} {ended : List Call},
      p.WriterStep disk' (some (.rename src (.sst n))) status ended →
      disk.find? (.sst n) = none)
    ∧ ∀ {disk' : DbDisk} {src : FileName} {n : ℕ} {status : Status} {ended : List Call},
      p.CompactorStep disk' (some (.rename src (.sst n))) status ended →
      disk.find? (.sst n) = none
  := by
  constructor
  · intro disk' src n status ended hstep
    have hnext : disk.find? (.sst p.db.nextSstableNumber) = none :=
      h.holds.find?_eq_none (fun r hr => (h.below r hr).ne)
    cases hstep with
    | write hw hfile => cases hfile
    | rename hw hopen => exact hnext
    | reject hw hopen => exact hnext
  · intro disk' src n status ended hstep
    have hcompactor := h.compactor
    have hholds := h.holds
    cases hstep with
    | write hc hfile => cases hfile
    | rename hc hopen =>
        simp only [hc, Compactor.WellFormed] at hcompactor
        rw [generations, hc] at hholds
        exact hholds.find?_eq_none hcompactor.2.2.2.2.1
    | reject hc hopen =>
        simp only [hc, Compactor.WellFormed] at hcompactor
        rw [generations, hc] at hholds
        exact hholds.find?_eq_none hcompactor.2.2.2.2.1

/-- In every run in which the tables flushed are accepted, the tables listed have distinct
numbers, the numbers on disk and the one reserved by a compaction are below the counter,
every table listed has its file with the bytes it was loaded from, the deletion loop removes
no table listed, and no rename replaces a table. -/
theorem numbers_distinct {s : State}
    (h : Reaches step (fun s a _ => a.noFailure ∧ s.FlushAccepted a) State.init s) :
  (∀ p, s.status = .running p →
    (p.db.sstables.map SSTableReader.path).Nodup
      ∧ (∀ n contents, s.disk.find? (.sst n) = some contents → n < p.db.nextSstableNumber)
      ∧ (∀ toCompact merged n file, p.compactor = .writing toCompact merged n file →
        n < p.db.nextSstableNumber)
      ∧ (∀ r ∈ p.db.sstables, s.disk.find? (.sst r.path) = some r.contents)
      ∧ ∀ old, p.compactor = .deleting old →
        ∀ r ∈ old, ∀ r' ∈ p.db.sstables, r.path ≠ r'.path)
    ∧ ∀ a m src n, a.noFailure → s.status.move a = some m →
      m.syscall = some (.rename src (.sst n)) → s.disk.find? (.sst n) = none
  := by
  have hwf := State.wellFormed_of_reaches h (fun s a t hok => hok)
  constructor
  · intro p hp
    rw [hp] at hwf
    have hlisted : ∀ r ∈ p.db.sstables, r ∈ p.generations :=
      fun r hr => Process.mem_generations hwf.compactor hr
    refine ⟨?_, ?_, ?_, ?_, ?_⟩
    · have hdistinct := hwf.distinct
      have hcompactor := hwf.compactor
      simp only [Process.generations] at hdistinct
      cases hc : p.compactor with
      | swapping toCompact compacted =>
          simp only [hc, Compactor.WellFormed] at hdistinct hcompactor
          obtain ⟨⟨rest, hrest⟩, -⟩ := hcompactor
          rw [← hrest, List.drop_left] at hdistinct
          rw [← hrest]
          apply List.Nodup.sublist _ hdistinct
          apply List.Sublist.map
          exact (List.Sublist.refl _).append (List.sublist_cons_self _ _)
      | deleting old =>
          simp only [hc] at hdistinct
          apply List.Nodup.sublist _ hdistinct
          apply List.Sublist.map
          exact List.sublist_append_right _ _
      | _ => simpa only [hc] using hdistinct
    · intro n contents hfind
      obtain ⟨r, hr, rfl, -⟩ := (hwf.holds n contents).mp hfind
      exact hwf.below r hr
    · intro toCompact merged n file hc
      have hcompactor := hwf.compactor
      simp only [hc, Compactor.WellFormed] at hcompactor
      exact hcompactor.2.2.2.1
    · exact fun r hr => hwf.holds.find?_path (hlisted r hr)
    · intro old hc r hr r' hr'
      have hdistinct := hwf.distinct
      rw [Process.generations, hc, List.map_append] at hdistinct
      intro heq
      apply List.disjoint_of_nodup_append hdistinct (List.mem_map_of_mem hr)
      rw [heq]
      exact List.mem_map_of_mem hr'
  · intro a m src n ha hmove hsyscall
    have hstep := Status.step_of_move hmove ha s.disk
    rw [hsyscall] at hstep
    generalize hstatus : s.status = status at hstep hwf
    generalize (m.next (m.files s.disk)).1 = status' at hstep
    generalize (m.next (m.files s.disk)).2 = ended at hstep
    cases hstep with
    | opener hopener => cases hopener
    | writer hwriter => exact hwf.rename_fresh.1 hwriter
    | compactor hcompactor => exact hwf.rename_fresh.2 hcompactor

/-- The table a flush is about to rename is accepted. -/
def State.accepts (s : State) (a : Action) : Bool :=
  a.noFailure &&
    match s.status with
    | .running p =>
        match SSTableReader.load p.db.nextSstableNumber (sstableFile p.db.memtable.entries) with
        | .ok _ => true
        | .error _ => false
    | _ => true

theorem flushAccepted_of_accepts {s : State} {a : Action} (h : s.accepts a = true) :
  a.noFailure ∧ s.FlushAccepted a
  := by
  rw [State.accepts, Bool.and_eq_true] at h
  refine ⟨h.1, ?_⟩
  unfold State.FlushAccepted
  split
  · rename_i p count hp
    intro op hw
    have hload := h.2
    simp only [hp] at hload
    split at hload
    · rename_i r hr
      exact ⟨r, hr⟩
    · simp at hload
  · trivial

theorem numbers_distinct_overtaken :
  ∃ s p, run (guarded step State.accepts) State.init overtakenRun = some s
    ∧ s.status = .running p ∧ (p.db.sstables.map SSTableReader.path).Nodup
    ∧ (∀ n contents, s.disk.find? (.sst n) = some contents → n < p.db.nextSstableNumber)
    ∧ ∀ r ∈ p.db.sstables, s.disk.find? (.sst r.path) = some r.contents
  := by
  have hrun : (run (guarded step State.accepts) State.init overtakenRun).any
      State.isRunning = true := by
    decide +kernel
  obtain ⟨s, hs, hrunning⟩ := exists_of_run hrun
  obtain ⟨p, hp⟩ := State.isRunning_iff.mp hrunning
  have hreach : Reaches step (fun s a _ => a.noFailure ∧ s.FlushAccepted a) State.init s :=
    Reaches.of_run hs (fun _ _ _ ha => flushAccepted_of_accepts ha)
  obtain ⟨hdistinct, hbelow, -, hfiles, -⟩ := (numbers_distinct hreach).1 p hp
  exact ⟨s, p, hs, hp, hdistinct, hbelow, hfiles⟩

/-! ### A rejected table -/

theorem getUint32LE_ones {bs : Bytes} (h : ∀ i, i < 4 → bs.getD i 0 = 0xFF) :
  getUint32LE bs = 0xFFFFFFFF
  := by
  simp only [getUint32LE, h 0 (by omega), h 1 (by omega), h 2 (by omega), h 3 (by omega)]
  decide

theorem exists_oversize_key :
  ∃ key : Bytes, key.length = 2 ^ 32 ∧ ∀ b ∈ key, b = 0xFF
  := by
  use List.replicate (2 ^ 32) 0xFF, List.length_replicate
  intro b hb
  exact List.eq_of_mem_replicate hb

/-- The index entry of a key of 2^32 bytes of ones has the key length 0, and the key is read
as the next entries. -/
theorem readIndex_oversize {key : Bytes} (hlen : key.length = 2 ^ 32)
    (hkey : ∀ b ∈ key, b = 0xFF) (offset : ℕ) :
  readIndex (encodeIndexEntry (key, offset)) = .error .corruptIndex
  := by
  have hview : encodeIndexEntry (key, offset)
      = putUint32LE 0 ++ (key ++ putUint64LE (UInt64.ofNat offset)) := by
    rw [encodeIndexEntry, hlen, List.append_assoc]
    rfl
  generalize hv : encodeIndexEntry (key, offset) = view at hview ⊢
  have hviewlen : view.length = 2 ^ 32 + 12 := by
    rw [hview]
    simp only [List.length_append, length_putUint32LE, length_putUint64LE, hlen]
    omega
  have hones : ∀ i, i < 2 ^ 32 → (key ++ putUint64LE (UInt64.ofNat offset)).getD i 0 = 0xFF := by
    intro i hi
    rw [List.getD_eq_getElem?_getD, List.getElem?_append_left (by omega),
      List.getElem?_eq_getElem (by omega), Option.getD_some]
    exact hkey _ (List.getElem_mem _)
  have hfirst : decodeIndexEntry view
      = some (⟨[], (getUint64LE (view.drop 4)).toNat⟩, 12) := by
    have hzero : getUint32LE view = 0 := by rw [hview, getUint32LE_put]
    simp only [decodeIndexEntry, hzero]
    rw [if_neg (by omega), if_neg (by simp; omega)]
    rfl
  have hsecond : decodeIndexEntry (view.drop 12) = none := by
    have hdrop : view.drop 12 = (key ++ putUint64LE (UInt64.ofNat offset)).drop 8 := by
      rw [show 12 = 4 + 8 from rfl, ← List.drop_drop, hview,
        List.drop_left' (length_putUint32LE _)]
    have hmax : getUint32LE (view.drop 12) = 0xFFFFFFFF := by
      apply getUint32LE_ones
      intro i hi
      rw [hdrop, List.getD_eq_getElem?_getD, List.getElem?_drop, ← List.getD_eq_getElem?_getD]
      exact hones _ (by omega)
    simp only [decodeIndexEntry, hmax, List.length_drop, hviewlen]
    rw [if_neg (by omega), if_pos (by decide)]
  have hne : view ≠ [] := List.ne_nil_of_length_pos (by omega)
  have hne' : view.drop 12 ≠ [] := List.ne_nil_of_length_pos (by rw [List.length_drop]; omega)
  rw [readIndex, hviewlen, show 2 ^ 32 + 12 = (2 ^ 32 + 10) + 1 + 1 from rfl,
    Framing.forFrames_of_yield hne hfirst rfl, Framing.forFrames_of_none hne' hsecond]

/-- A table with such a key as its only one is written, and rejected when it is opened. -/
theorem load_oversize {key : Bytes} (hlen : key.length = 2 ^ 32) (hkey : ∀ b ∈ key, b = 0xFF)
    {m : EntryMap} (hm : m.entries = [(key, ⟨[], false⟩)]) :
  ∃ contents, writeSSTable m = .ok contents ∧ contents ≠ []
    ∧ ∀ n, SSTableReader.load n contents = .error .corruptIndex
  := by
  have hlayout := layout_eq m.entries
  have hsamples : samples m.entries = [(key, 0)] := by
    rw [hm]
    simp [samples, sampleCount, sparseIndexInterval, sample]
  have hdata : (encodeEntries m.entries).length = 2 ^ 32 + 13 := by
    rw [hm, encodeEntries, List.flatMap_singleton, encodeEntry, Record.encode,
      length_encodeRecord]
    simp only [entryRecord, hlen, headerSize]
    rfl
  have hfile : sstableFile m = encodeEntries m.entries ++ encodeIndexEntry (key, 0)
      ++ encodeFooter (encodeEntries m.entries).length (encodeIndexEntry (key, 0)).length
        m.entries.length := by
    rw [sstableFile, hlayout, hsamples, List.flatMap_singleton]
  have hindex := length_encodeIndexEntry (key, 0)
  simp only [hlen] at hindex
  have hsize : (sstableFile m).length = 2 ^ 32 + 13 + (4 + 2 ^ 32 + 8) + footerSize := by
    rw [hfile, List.length_append, List.length_append, hdata, hindex, length_encodeFooter]
  refine ⟨sstableFile m, ?_, ?_, ?_⟩
  · rw [writeSSTable, if_neg]
    rw [hsize]
    decide
  · apply List.ne_nil_of_length_pos
    rw [hsize]
    decide
  · intro n
    have hfooter : readFooter (sstableFile m)
        = .ok (UInt64.ofNat (encodeEntries m.entries).length,
          UInt64.ofNat (encodeIndexEntry (key, 0)).length) := by
      rw [hfile]
      apply readFooter_encoded
      rw [List.length_append]
    have hoffset := toNat_ofNat64 (show (encodeEntries m.entries).length < 2 ^ 64 by omega)
    have hcount := toNat_ofNat64 (show (encodeIndexEntry (key, 0)).length < 2 ^ 64 by omega)
    have hview : ((sstableFile m).drop (encodeEntries m.entries).length).take
        (encodeIndexEntry (key, 0)).length = encodeIndexEntry (key, 0) := by
      rw [hfile, List.append_assoc, List.drop_left, List.take_left]
    simp only [SSTableReader.load, hfooter, bind, Except.bind, hoffset, hcount]
    rw [if_neg, hview, readIndex_oversize hlen hkey]
    rw [hsize, hdata, hindex]
    omega

/-- The first steps of a call make its record durable. -/
theorem run_append_record {s : State} {p : Process} (hp : s.status = .running p)
    (hw : p.writer = .idle) (op : Op) :
  ∃ t, run step s [.call op, .writer op.encode.length, .writer 0] = some t
    ∧ t.status = .running { p with writer := .applying op }
  := by
  obtain ⟨disk, status, calls⟩ := s
  simp only at hp
  subst hp
  obtain ⟨b, bs, hencode⟩ := List.exists_cons_of_ne_nil op.encode_ne_nil
  simp [run, step, Status.move, hw, Process.writerMove, hencode, State.after, Move.files,
    Move.silent]

/-- A flush that writes a table that is rejected leaves the table behind. -/
theorem run_reject_table {s : State} {p : Process} {op : Op}
    (hp : s.status = .running { p with writer := .applying op }) {contents : Bytes}
    {e : StorageError}
    (hflush : { p.db with memtable := p.db.memtable.apply op }.needsFlush = true)
    (hwrite : writeSSTable (p.db.memtable.apply op).entries = .ok contents)
    (hne : contents ≠ [])
    (hload : SSTableReader.load p.db.nextSstableNumber contents = .error e) :
  ∃ t, run step s [.writer 0, .writer 0, .writer contents.length, .writer 0, .writer 0] = some t
    ∧ t.status = .running { p with db.memtable := p.db.memtable.apply op, writer := .idle }
    ∧ t.disk.find? (.sst p.db.nextSstableNumber) = some contents
  := by
  obtain ⟨disk, status, calls⟩ := s
  simp only at hp
  subst hp
  obtain ⟨d, ds, rfl⟩ := List.exists_cons_of_ne_nil hne
  simp [run, step, Status.move, Process.writerMove, State.after, Move.files, Process.applied,
    hflush, FileWrite.move, hwrite, Process.tableWritten, openSSTable, Syscall.exec, hload,
    Process.threw]

/-- A call whose flush writes a table that is rejected leaves the table behind. -/
theorem run_rejected_flush {s : State} {p : Process} (hp : s.status = .running p)
    (hw : p.writer = .idle) {op : Op} {contents : Bytes} {e : StorageError}
    (hflush : { p.db with memtable := p.db.memtable.apply op }.needsFlush = true)
    (hwrite : writeSSTable (p.db.memtable.apply op).entries = .ok contents)
    (hne : contents ≠ [])
    (hload : SSTableReader.load p.db.nextSstableNumber contents = .error e) :
  ∃ t, run step s [.call op, .writer op.encode.length, .writer 0, .writer 0, .writer 0,
      .writer contents.length, .writer 0, .writer 0] = some t
    ∧ t.status = .running { p with db.memtable := p.db.memtable.apply op, writer := .idle }
    ∧ t.disk.find? (.sst p.db.nextSstableNumber) = some contents
  := by
  obtain ⟨u, hu, hstatus⟩ := run_append_record hp hw op
  obtain ⟨t, ht, hrejected⟩ := run_reject_table hstatus hflush hwrite hne hload
  have hsplit := @run_append _ _ step s [.call op, .writer op.encode.length, .writer 0]
    [.writer 0, .writer 0, .writer contents.length, .writer 0, .writer 0]
  rw [hu, Option.bind_some, ht] at hsplit
  exact ⟨t, hsplit, hrejected⟩

/-- The flush of a key of 2^32 bytes of ones leaves a table whose number is not below the
counter. -/
theorem not_numbers_below :
  ¬ ∀ (s : State) (p : Process), Reaches step (fun _ a _ => a.noFailure) State.init s →
    s.status = .running p →
    ∀ n contents, s.disk.find? (.sst n) = some contents → n < p.db.nextSstableNumber
  := by
  intro hall
  obtain ⟨key, hlen, hkey⟩ := exists_oversize_key
  have hentries : (MemTable.empty.apply (.put key [])).entries.entries = [(key, ⟨[], false⟩)] :=
    rfl
  obtain ⟨contents, hwrite, hne, hload⟩ := load_oversize hlen hkey hentries
  have hflush : { Database.fresh 0 9 with
      memtable := MemTable.empty.apply (.put key []) }.needsFlush = true := by
    simp [Database.needsFlush, Database.fresh]
  obtain ⟨t, hrun, ht, hfind⟩ := run_rejected_flush (s := State.fresh 0 9) rfl rfl hflush hwrite hne
    (hload _)
  have hreach : Reaches step (fun _ a _ => a.noFailure) State.init t := by
    apply Reaches.trans (t := State.fresh 0 9)
    · exact (reaches_fresh 0 9).mono (fun s a u hok => hok.noFailure)
    · apply Reaches.of_run_invariant (I := fun _ => True) hrun trivial
      intro s a u ha _ _
      simp only [List.mem_cons, List.not_mem_nil, or_false] at ha
      rcases ha with rfl | rfl | rfl | rfl | rfl | rfl | rfl | rfl
      all_goals exact ⟨rfl, trivial⟩
  have hlt := hall t _ hreach ht _ _ hfind
  exact lt_irrefl _ hlt

end TinyLsm
