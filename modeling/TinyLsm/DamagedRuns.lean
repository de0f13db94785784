import TinyLsm.BitRot
import TinyLsm.CompactionCrash

/-!
# Runs on damaged tables

What a process makes of a directory in which records of any tables are damaged.  Every run is the run of
the undamaged directory with the same calls, in which the process is killed where the compaction thread
comes to a damaged record; a lookup throws or answers as there (`damaged_run_simulated`).  So no
compaction writes a table from damaged records, and no lookup answers with one (`damaged_answers`).
-/

namespace TinyLsm

open FileSystem Transition

/-! ### Readers -/

/-- The reader of a table, or of the same table with damaged records. -/
def SSTableReader.Damages (r' r : SSTableReader) : Prop :=
  r' = r ∨ ∃ (d : DamagedTable) (path : ℕ), r' = d.reader path ∧ r = d.table.reader path

/-- The answer of the undamaged table, or an exception. -/
def SameOrCorrupt {α : Type*} (result' result : Except StorageError α) : Prop :=
  result' = .error .corruptBlock ∨ result' = result

theorem sameOrCorrupt_ite {α : Type*} (c : Bool) (result : Except StorageError α) :
  SameOrCorrupt (if c then .error .corruptBlock else result) result
  := by
  cases c with
  | true => exact Or.inl rfl
  | false => exact Or.inr rfl

namespace SSTableReader.Damages

variable {r' r : SSTableReader}

theorem path_eq (h : r'.Damages r) :
  r'.path = r.path
  := by
  obtain rfl | ⟨d, path, rfl, rfl⟩ := h
  · rfl
  · rfl

theorem find (h : r'.Damages r) (key : Bytes) :
  SameOrCorrupt (r'.find key) (r.find key)
  := by
  obtain rfl | ⟨d, path, rfl, rfl⟩ := h
  · exact Or.inr rfl
  · rw [d.find_reader]
    apply sameOrCorrupt_ite

theorem scanRaw (h : r'.Damages r) (start stop : Bytes) :
  SameOrCorrupt (r'.scanRaw start stop) (r.scanRaw start stop)
  := by
  obtain rfl | ⟨d, path, rfl, rfl⟩ := h
  · exact Or.inr rfl
  · rw [d.scanRaw_reader]
    apply sameOrCorrupt_ite

theorem allRaw (h : r'.Damages r) :
  SameOrCorrupt r'.allRaw r.allRaw
  := by
  obtain rfl | ⟨d, path, rfl, rfl⟩ := h
  · exact Or.inr rfl
  · rw [d.allRaw_reader]
    cases d.pieces.all Framing.Piece.isIntact with
    | true => exact Or.inr rfl
    | false => exact Or.inl rfl

end SSTableReader.Damages

/-! ### Lookups -/

variable {readers' readers : List SSTableReader}

/-- A loop over the tables that merges what it reads of each. -/
theorem sameOrCorrupt_foldlM {α ρ : Type} {read : SSTableReader → Except StorageError α}
    (hread : ∀ r' r, r'.Damages r → SameOrCorrupt (read r') (read r)) (merge : ρ → α → ρ)
    (h : List.Forall₂ SSTableReader.Damages readers' readers) (acc : ρ) :
  SameOrCorrupt (readers'.foldlM (fun acc r => do .ok (merge acc (← read r))) acc)
    (readers.foldlM (fun acc r => do .ok (merge acc (← read r))) acc)
  := by
  induction h generalizing acc with
  | nil => exact Or.inr rfl
  | @cons r' r readers' readers hr _ ih =>
      rw [List.foldlM_cons, List.foldlM_cons]
      obtain hcorrupt | hsame := hread r' r hr
      · rw [hcorrupt]
        exact Or.inl rfl
      · rw [hsame]
        cases read r with
        | error e => exact Or.inr rfl
        | ok value => exact ih (merge acc value)

theorem sameOrCorrupt_getFrom (h : List.Forall₂ SSTableReader.Damages readers' readers)
    (key : Bytes) :
  SameOrCorrupt (Database.getFrom key readers') (Database.getFrom key readers)
  := by
  induction h with
  | nil => exact Or.inr rfl
  | @cons r' r readers' readers hr _ ih =>
      rw [Database.getFrom, Database.getFrom]
      obtain hcorrupt | hsame := hr.find key
      · rw [hcorrupt]
        exact Or.inl rfl
      · rw [hsame]
        cases r.find key with
        | error e => exact Or.inr rfl
        | ok found =>
            cases found with
            | some entry => exact Or.inr rfl
            | none => exact ih

theorem sameOrCorrupt_compactedEntries (h : List.Forall₂ SSTableReader.Damages readers' readers) :
  SameOrCorrupt (Database.compactedEntries readers') (Database.compactedEntries readers)
  := by
  have hmerge := sameOrCorrupt_foldlM (fun _ _ hr => hr.allRaw)
    (fun (merged : EntryMap) es => merged.overwrite es) h OrderedMap.empty
  rw [Database.compactedEntries, Database.compactedEntries, mergeSSTables, mergeSSTables]
  obtain hcorrupt | hsame := hmerge
  · rw [hcorrupt]
    exact Or.inl rfl
  · rw [hsame]
    exact Or.inr rfl

/-- The members are the same but for damaged records in tables. -/
def Database.Damages (db' db : Database) : Prop :=
  ∃ readers', db' = { db with sstables := readers' }
    ∧ List.Forall₂ SSTableReader.Damages readers' db.sstables

namespace Database.Damages

variable {db' db : Database}

theorem get (h : db'.Damages db) (key : Bytes) :
  SameOrCorrupt (db'.get key) (db.get key)
  := by
  obtain ⟨readers', rfl, hreaders⟩ := h
  rw [Database.get, Database.get]
  cases db.memtable.find key with
  | some entry => exact Or.inr rfl
  | none => exact sameOrCorrupt_getFrom (List.rel_reverse hreaders) key

theorem scan (h : db'.Damages db) (start stop : Bytes) :
  SameOrCorrupt (db'.scan start stop) (db.scan start stop)
  := by
  obtain ⟨readers', rfl, hreaders⟩ := h
  have hmerge := sameOrCorrupt_foldlM (fun _ _ hr => hr.scanRaw start stop)
    (fun (merged : EntryMap) es => merged.overwrite es) hreaders OrderedMap.empty
  rw [Database.scan, Database.scan, scanMerged, scanMerged]
  obtain hcorrupt | hsame := hmerge
  · rw [hcorrupt]
    exact Or.inl rfl
  · rw [hsame]
    exact Or.inr rfl

theorem pushTable (h : db'.Damages db) {r' r : SSTableReader} (hr : r'.Damages r) :
  (db'.pushTable r').Damages (db.pushTable r)
  := by
  obtain ⟨readers', rfl, hreaders⟩ := h
  exact ⟨_, rfl, List.rel_append hreaders (.cons hr .nil)⟩

theorem swapIn (h : db'.Damages db) {r' r : SSTableReader} (hr : r'.Damages r) (count : ℕ) :
  (db'.swapIn r' count).Damages (db.swapIn r count)
  := by
  obtain ⟨readers', rfl, hreaders⟩ := h
  exact ⟨_, rfl, .cons hr (List.forall₂_drop count hreaders)⟩

theorem setMemtable (h : db'.Damages db) (memtable : MemTable) :
  Database.Damages { db' with memtable := memtable } { db with memtable := memtable }
  := by
  obtain ⟨readers', rfl, hreaders⟩ := h
  exact ⟨readers', rfl, hreaders⟩

theorem clearMemtable (h : db'.Damages db) :
  db'.clearMemtable.Damages db.clearMemtable
  := by
  obtain ⟨readers', rfl, hreaders⟩ := h
  rw [Database.clearMemtable, Database.clearMemtable, maybeTriggerCompaction,
    maybeTriggerCompaction]
  simp only [hreaders.length_eq]
  split_ifs
  · exact ⟨readers', rfl, hreaders⟩
  · exact ⟨readers', rfl, hreaders⟩

end Database.Damages

/-! ### Directories -/

/-- The contents of a file and those without damage: only tables are damaged. -/
def DamagedContents : FileName → Bytes → Bytes → Prop
  | .sst _, contents', contents =>
      contents' = contents ∨ ∃ d : DamagedTable, contents' = d.file ∧ contents = d.table.file
  | _, contents', contents => contents' = contents

/-- The directory is the other one, with damaged records in tables. -/
def DiskDamages (disk' disk : DbDisk) : Prop :=
  OrderedMap.Related DamagedContents disk' disk

/-- Both computations end with the same error, or with related results. -/
inductive SameEnd {ε α β : Type*} (R : α → β → Prop) : Except ε α → Except ε β → Prop where
  | error (e : ε) : SameEnd R (.error e) (.error e)
  | ok {a : α} {b : β} : R a b → SameEnd R (.ok a) (.ok b)

theorem sameEnd_load {number : ℕ} {contents' contents : Bytes}
    (h : DamagedContents (.sst number) contents' contents) :
  SameEnd SSTableReader.Damages (SSTableReader.load number contents')
    (SSTableReader.load number contents)
  := by
  obtain rfl | ⟨d, rfl, rfl⟩ := h
  · cases SSTableReader.load number contents' with
    | error e => exact .error e
    | ok r => exact .ok (Or.inl rfl)
  · rw [d.load_file, d.table.load_file]
    exact .ok (Or.inr ⟨d, number, rfl, rfl⟩)

theorem sameEnd_openSSTable {disk' disk : DbDisk} (h : DiskDamages disk' disk) (number : ℕ) :
  SameEnd SSTableReader.Damages (openSSTable disk' number) (openSSTable disk number)
  := by
  have hfile := h (.sst number)
  rw [openSSTable, openSSTable]
  generalize disk'.find? (.sst number) = contents' at hfile
  generalize disk.find? (.sst number) = contents at hfile
  cases hfile with
  | none => exact .error _
  | some hcontents => exact sameEnd_load hcontents

theorem sstFiles_damages {disk' disk : DbDisk} (h : DiskDamages disk' disk) :
  List.Forall₂ (fun f' f => f'.1 = f.1 ∧ DamagedContents (.sst f.1) f'.2 f.2) (sstFiles disk')
    (sstFiles disk)
  := by
  apply List.rel_filterMap _ h.forall₂_entries
  rintro ⟨name', contents'⟩ ⟨name, contents⟩ ⟨rfl, hcontents⟩
  cases name' with
  | sst number => exact .some ⟨rfl, hcontents⟩
  | _ => exact .none

theorem tmpNumbers_damages {disk' disk : DbDisk} (h : DiskDamages disk' disk) :
  tmpNumbers disk' = tmpNumbers disk
  := by
  rw [← List.forall₂_eq_eq_eq]
  apply List.rel_filterMap _ h.forall₂_entries
  rintro ⟨name', contents'⟩ ⟨name, contents⟩ ⟨rfl, hcontents⟩
  cases name' with
  | tmp number => exact .some rfl
  | _ => exact .none

theorem sameEnd_openTables {disk' disk : DbDisk} (h : DiskDamages disk' disk) :
  SameEnd (List.Forall₂ SSTableReader.Damages) (openTables disk') (openTables disk)
  := by
  have hfiles := sstFiles_damages h
  rw [openTables, openTables]
  generalize sstFiles disk' = files' at hfiles
  generalize sstFiles disk = files at hfiles
  induction hfiles with
  | nil => exact .ok .nil
  | @cons f' f files' files hf _ ih =>
      obtain ⟨number', contents'⟩ := f'
      obtain ⟨number, contents⟩ := f
      obtain ⟨rfl, hcontents⟩ := hf
      rw [List.mapM_cons, List.mapM_cons]
      have hload := sameEnd_load hcontents
      dsimp only at hload ⊢
      generalize SSTableReader.load number' contents' = result' at hload
      generalize SSTableReader.load number' contents = result at hload
      cases hload with
      | error e => exact .error e
      | ok hr =>
          generalize files'.mapM (fun file => SSTableReader.load file.1 file.2) = results' at ih
          generalize files.mapM (fun file => SSTableReader.load file.1 file.2) = results at ih
          cases ih with
          | error e => exact .error e
          | ok hrs => exact .ok (.cons hr hrs)

/-! ### Processes -/

theorem nextNumber_damages {readers' readers : List SSTableReader}
    (h : List.Forall₂ SSTableReader.Damages readers' readers) :
  nextNumber readers' = nextNumber readers
  := by
  have hpaths : readers'.map SSTableReader.path = readers.map SSTableReader.path := by
    rw [← List.forall₂_eq_eq_eq, List.forall₂_map_left_iff, List.forall₂_map_right_iff]
    exact h.imp (fun _ _ hr => hr.path_eq)
  have hlast := congrArg List.getLast? hpaths
  rw [List.getLast?_map, List.getLast?_map] at hlast
  rw [nextNumber, nextNumber]
  cases hr' : readers'.getLast? with
  | none =>
      rw [hr', Option.map_none, eq_comm, Option.map_eq_none_iff] at hlast
      rw [hlast]
  | some r' =>
      rw [hr', Option.map_some, eq_comm, Option.map_eq_some_iff] at hlast
      obtain ⟨r, hr, hpath⟩ := hlast
      rw [hr]
      dsimp only
      rw [hpath]

theorem sameEnd_discover {disk' disk : DbDisk} (h : DiskDamages disk' disk) (thr : UInt64)
    (trig : ℕ) :
  SameEnd Database.Damages (Database.discover thr trig disk') (Database.discover thr trig disk)
  := by
  have hopen := sameEnd_openTables h
  rw [Database.discover, Database.discover]
  generalize openTables disk' = result' at hopen
  generalize openTables disk = result at hopen
  cases hopen with
  | error e => exact .error e
  | ok hreaders =>
      refine .ok ⟨_, ?_, hreaders⟩
      rw [nextNumber_damages hreaders]

/-- The compaction thread stands at the same place, with damaged tables. -/
inductive Compactor.Damages : Compactor → Compactor → Prop where
  | waiting : Damages .waiting .waiting
  | started : Damages .started .started
  | merging {readers' readers : List SSTableReader} :
      List.Forall₂ SSTableReader.Damages readers' readers →
      Damages (.merging readers') (.merging readers)
  | allocating {readers' readers : List SSTableReader} {merged : EntryMap} :
      List.Forall₂ SSTableReader.Damages readers' readers →
      Damages (.allocating readers' merged) (.allocating readers merged)
  | writing {readers' readers : List SSTableReader} {merged : EntryMap} {number : ℕ}
      {file : FileWrite} :
      List.Forall₂ SSTableReader.Damages readers' readers →
      Damages (.writing readers' merged number file) (.writing readers merged number file)
  | swapping {readers' readers : List SSTableReader} {r' r : SSTableReader} :
      List.Forall₂ SSTableReader.Damages readers' readers → r'.Damages r →
      Damages (.swapping readers' r') (.swapping readers r)
  | deleting {readers' readers : List SSTableReader} :
      List.Forall₂ SSTableReader.Damages readers' readers →
      Damages (.deleting readers') (.deleting readers)
  | finishing : Damages .finishing .finishing

inductive Process.Damages : Process → Process → Prop where
  | mk {db' db : Database} {writer : Writer} {compactor' compactor : Compactor} :
      db'.Damages db → compactor'.Damages compactor →
      Damages ⟨db', writer, compactor'⟩ ⟨db, writer, compactor⟩

inductive Opener.Damages : Opener → Opener → Prop where
  | cleaning (thr : UInt64) (trig : ℕ) (leftover : List ℕ) :
      Damages (.cleaning thr trig leftover) (.cleaning thr trig leftover)
  | creatingLog {db' db : Database} :
      db'.Damages db → Damages (.creatingLog db') (.creatingLog db)
  | replaying {db' db : Database} : db'.Damages db → Damages (.replaying db') (.replaying db)
  | truncating {db' db : Database} {validEnd : ℕ} :
      db'.Damages db → Damages (.truncating db' validEnd) (.truncating db validEnd)

inductive Status.Damages : Status → Status → Prop where
  | down : Damages .down .down
  | failed (e : StorageError) : Damages (.failed e) (.failed e)
  | opening {o' o : Opener} : o'.Damages o → Damages (.opening o') (.opening o)
  | running {p' p : Process} : p'.Damages p → Damages (.running p') (.running p)

/-- The state is the other one, with damaged records in tables. -/
structure State.Damages (s' s : State) : Prop where
  disk : DiskDamages s'.disk s.disk
  status : s'.status.Damages s.status
  calls : s'.calls = s.calls

/-! ### Moves -/

/-- What follows a move is the same in both, with the same calls that end. -/
def SameNext (next' next : Status × List Call) : Prop :=
  next'.1.Damages next.1 ∧ next'.2 = next.2

/-- The moves lead from a damaged directory and the undamaged one to such states again. -/
def Move.Damages (m' m : Move) : Prop :=
  ∀ disk' disk, DiskDamages disk' disk →
    DiskDamages (m'.files disk') (m.files disk)
      ∧ SameNext (m'.next (m'.files disk')) (m.next (m.files disk))

theorem SameNext.ite {c' c : Bool} {a' b' a b : Status × List Call} (hc : c' = c)
    (ha : SameNext a' a) (hb : SameNext b' b) :
  SameNext (if c' then a' else b') (if c then a else b)
  := by
  subst hc
  cases c' with
  | true => exact ha
  | false => exact hb

namespace Move

theorem damages_call {c : DbSyscall} {next' next : DbDisk → Status × List Call}
    (hc : c.Respects DamagedContents)
    (hnext : ∀ disk' disk, DiskDamages disk' disk → SameNext (next' disk') (next disk)) :
  Move.Damages ⟨some c, next'⟩ ⟨some c, next⟩
  := fun _ _ h => ⟨hc.exec h, hnext _ _ (hc.exec h)⟩

theorem damages_none {next' next : DbDisk → Status × List Call}
    (hnext : ∀ disk' disk, DiskDamages disk' disk → SameNext (next' disk') (next disk)) :
  Move.Damages ⟨none, next'⟩ ⟨none, next⟩
  := fun _ _ h => ⟨h, hnext _ _ h⟩

theorem damages_silent {status' status : Status} (h : status'.Damages status) :
  Move.Damages (.silent status') (.silent status)
  := damages_none (fun _ _ _ => ⟨h, rfl⟩)

end Move

theorem FileWrite.respects_move {file : FileWrite} {number count : ℕ} {c : DbSyscall}
    {next : Option FileWrite} (h : file.move number count = some (c, next)) :
  c.Respects DamagedContents
  := by
  cases file with
  | creating entries =>
      rw [FileWrite.move] at h
      split at h
      · simp at h
      · obtain ⟨rfl, -⟩ := Prod.mk.inj (Option.some.inj h)
        exact rfl
  | writing rest =>
      cases rest with
      | nil =>
          obtain ⟨rfl, -⟩ := Prod.mk.inj (Option.some.inj h)
          trivial
      | cons b bs =>
          rw [FileWrite.move] at h
          split_ifs at h
          obtain ⟨rfl, -⟩ := Prod.mk.inj (Option.some.inj h)
          rintro contents' contents rfl
          rfl
  | synced =>
      obtain ⟨rfl, -⟩ := Prod.mk.inj (Option.some.inj h)
      exact fun contents' contents hcontents => Or.inl hcontents

namespace Process

variable {p' p : Process}

theorem damages_running {db' db : Database} {writer : Writer} {compactor' compactor : Compactor}
    (hdb : db'.Damages db) (hcompactor : compactor'.Damages compactor) (calls : List Call) :
  SameNext (.running ⟨db', writer, compactor'⟩, calls) (.running ⟨db, writer, compactor⟩, calls)
  := ⟨.running (.mk hdb hcompactor), rfl⟩

theorem damages_terminated (h : p'.Damages p) :
  SameNext p'.terminated p.terminated
  := by
  cases h with
  | mk hdb hcompactor => exact ⟨.down, rfl⟩

theorem damages_tableWritten (h : p'.Damages p) (op : Op) {disk' disk : DbDisk}
    (hdisk : DiskDamages disk' disk) :
  SameNext (p'.tableWritten op disk') (p.tableWritten op disk)
  := by
  cases h with
  | @mk db' db writer compactor' compactor hdb hcompactor =>
      have hopen := sameEnd_openSSTable hdisk db.nextSstableNumber
      obtain ⟨readers', rfl, hreaders⟩ := id hdb
      rw [tableWritten, tableWritten]
      dsimp only
      generalize openSSTable disk' db.nextSstableNumber = result' at hopen
      generalize openSSTable disk db.nextSstableNumber = result at hopen
      cases hopen with
      | error e => exact ⟨.running (.mk hdb hcompactor), rfl⟩
      | ok hr => exact ⟨.running (.mk (hdb.pushTable hr) hcompactor), rfl⟩

theorem damages_applied (h : p'.Damages p) (op : Op) :
  SameNext (p'.applied op) (p.applied op)
  := by
  cases h with
  | @mk db' db writer compactor' compactor hdb hcompactor =>
      have happlied := hdb.setMemtable (db.memtable.apply op)
      obtain ⟨readers', rfl, -⟩ := hdb
      rw [applied, applied]
      apply SameNext.ite rfl
      · exact ⟨.running (.mk happlied hcompactor), rfl⟩
      · exact ⟨.running (.mk happlied hcompactor), rfl⟩

theorem damages_writerMove (h : p'.Damages p) (count : ℕ) :
  Option.Rel Move.Damages (p'.writerMove count) (p.writerMove count)
  := by
  have hprocess := h
  cases h with
  | @mk db' db writer compactor' compactor hdb hcompactor =>
      rw [writerMove, writerMove]
      cases writer with
      | idle => exact .none
      | appending op rest =>
          cases rest with
          | nil =>
              refine .some (Move.damages_call trivial ?_)
              exact fun _ _ _ => damages_running hdb hcompactor _
          | cons b bs =>
              dsimp only
              split_ifs
              · refine .some (Move.damages_call ?_ ?_)
                · rintro contents' contents rfl
                  rfl
                · exact fun _ _ _ => damages_running hdb hcompactor _
              · exact .none
      | applying op =>
          refine .some (Move.damages_none ?_)
          exact fun _ _ _ => damages_applied hprocess op
      | flushing op file =>
          have hnumber : db'.nextSstableNumber = db.nextSstableNumber := by
            obtain ⟨readers', rfl, -⟩ := hdb
            rfl
          dsimp only
          rw [hnumber]
          cases hmove : file.move db.nextSstableNumber count with
          | none => exact .none
          | some move =>
              obtain ⟨c, next⟩ := move
              have hc := FileWrite.respects_move hmove
              cases next with
              | none =>
                  refine .some (Move.damages_call hc ?_)
                  exact fun _ _ hdisk => damages_tableWritten hprocess op hdisk
              | some file' =>
                  refine .some (Move.damages_call hc ?_)
                  exact fun _ _ _ => damages_running hdb hcompactor _
      | resetting op =>
          refine .some (Move.damages_call ?_ ?_)
          · rintro contents' contents rfl
            rfl
          · exact fun _ _ _ => damages_running hdb.clearMemtable hcompactor _

theorem damages_writerFailMove (h : p'.Damages p) (late : Bool) :
  Option.Rel Move.Damages (p'.writerFailMove late) (p.writerFailMove late)
  := by
  have hthrew : ∀ op updated, SameNext (p'.threw op updated) (p.threw op updated) := by
    intro op updated
    cases h with
    | mk hdb hcompactor => exact ⟨.running (.mk hdb hcompactor), rfl⟩
  cases h with
  | @mk db' db writer compactor' compactor hdb hcompactor =>
      have hfail : ∀ (c : Option DbSyscall) op updated, (∀ c' ∈ c, c'.Respects DamagedContents) →
          Move.Damages
            ⟨if late then c else none,
              fun _ => (⟨db', writer, compactor'⟩ : Process).threw op updated⟩
            ⟨if late then c else none,
              fun _ => (⟨db, writer, compactor⟩ : Process).threw op updated⟩ := by
        intro c op updated hc
        cases late with
        | false => exact Move.damages_none (fun _ _ _ => hthrew op updated)
        | true =>
            cases c with
            | none => exact Move.damages_none (fun _ _ _ => hthrew op updated)
            | some c => exact Move.damages_call (hc c rfl) (fun _ _ _ => hthrew op updated)
      rw [writerFailMove, writerFailMove]
      cases writer with
      | idle => exact .none
      | appending op rest =>
          cases rest with
          | nil => exact .some (hfail (some (.fsync .walLog)) op false (by simp [Syscall.Respects]))
          | cons b bs => exact .some (Move.damages_none (fun _ _ _ => hthrew op false))
      | applying op => exact .none
      | flushing op file =>
          have hnumber : db'.nextSstableNumber = db.nextSstableNumber := by
            obtain ⟨readers', rfl, -⟩ := hdb
            rfl
          dsimp only
          rw [hnumber]
          refine .some (hfail _ op true ?_)
          intro c hc
          obtain ⟨⟨c', next⟩, hmove, rfl⟩ := Option.map_eq_some_iff.mp hc
          exact FileWrite.respects_move hmove
      | resetting op =>
          refine .some (hfail (some (.ftruncate .walLog 0)) op true ?_)
          intro c hc
          obtain rfl := Option.some.inj hc
          rintro contents' contents rfl
          rfl

theorem unlocked_damages (h : p'.Damages p) :
  p'.unlocked = p.unlocked
  := by
  cases h with
  | mk _ _ => rfl

theorem damages_compactedWritten (h : p'.Damages p) {toCompact' toCompact : List SSTableReader}
    (htables : List.Forall₂ SSTableReader.Damages toCompact' toCompact) (number : ℕ)
    {disk' disk : DbDisk} (hdisk : DiskDamages disk' disk) :
  SameNext (p'.compactedWritten toCompact' number disk') (p.compactedWritten toCompact number disk)
  := by
  have hterminated := damages_terminated h
  have hopen := sameEnd_openSSTable hdisk number
  cases h with
  | mk hdb _ =>
      rw [compactedWritten, compactedWritten]
      generalize openSSTable disk' number = result' at hopen
      generalize openSSTable disk number = result at hopen
      cases hopen with
      | error e => exact hterminated
      | ok hr => exact damages_running hdb (.swapping htables hr) _

/-- The compaction thread moves as on the undamaged tables, or comes to a damaged record and ends the
process. -/
theorem damages_compactorMove (h : p'.Damages p) (count : ℕ) :
  p'.compactorMove count = some ⟨none, fun _ => p'.terminated⟩
    ∨ Option.Rel Move.Damages (p'.compactorMove count) (p.compactorMove count)
  := by
  have hprocess := h
  have hunlocked := unlocked_damages h
  cases h with
  | @mk db' db writer compactor' compactor hdb hcompactor =>
      have hswap := fun {r' r : SSTableReader} (hr : r'.Damages r) count => hdb.swapIn hr count
      obtain ⟨readers', rfl, hreaders⟩ := id hdb
      rw [compactorMove, compactorMove, hunlocked]
      cases hcompactor with
      | waiting =>
          right
          dsimp only
          split_ifs
          · exact .some (Move.damages_silent (.running (.mk ⟨readers', rfl, hreaders⟩ .started)))
          · exact .none
      | started =>
          right
          dsimp only
          rw [hreaders.length_eq]
          split_ifs
          · exact .some (Move.damages_silent (.running (.mk hdb .finishing)))
          · exact .some (Move.damages_silent (.running (.mk hdb (.merging hreaders))))
          · exact .none
      | merging htables =>
          dsimp only
          obtain hcorrupt | hsame := sameOrCorrupt_compactedEntries htables
          · left
            rw [hcorrupt]
          · right
            rw [hsame]
            cases Database.compactedEntries _ with
            | error e =>
                exact .some (Move.damages_none (fun _ _ _ => damages_terminated hprocess))
            | ok merged =>
                exact .some (Move.damages_silent (.running (.mk hdb (.allocating htables))))
      | allocating htables =>
          right
          dsimp only
          split_ifs
          · refine .some (Move.damages_silent (.running (.mk ?_ (.writing htables))))
            exact ⟨readers', rfl, hreaders⟩
          · exact .none
      | @writing toCompact' toCompact merged number file htables =>
          right
          dsimp only
          cases hmove : file.move number count with
          | none => exact .none
          | some move =>
              obtain ⟨c, next⟩ := move
              have hc := FileWrite.respects_move hmove
              cases next with
              | none =>
                  refine .some (Move.damages_call hc ?_)
                  exact fun _ _ hdisk => damages_compactedWritten hprocess htables number hdisk
              | some file' =>
                  refine .some (Move.damages_call hc ?_)
                  exact fun _ _ _ => damages_running hdb (.writing htables) _
      | swapping htables hr =>
          right
          dsimp only
          rw [htables.length_eq]
          split_ifs
          · refine .some (Move.damages_silent (.running (.mk (hswap hr _) (.deleting ?_))))
            exact List.forall₂_take _ hreaders
          · exact .none
      | deleting hold =>
          right
          cases hold with
          | nil => exact .some (Move.damages_silent (.running (.mk hdb .finishing)))
          | cons hr hold =>
              dsimp only
              rw [hr.path_eq]
              refine .some (Move.damages_call trivial ?_)
              exact fun _ _ _ => damages_running hdb (.deleting hold) _
      | finishing =>
          right
          refine .some (Move.damages_silent (.running (.mk ?_ .waiting)))
          exact ⟨readers', rfl, hreaders⟩

theorem damages_compactorFailMove (h : p'.Damages p) (late : Bool) :
  Option.Rel Move.Damages (p'.compactorFailMove late) (p.compactorFailMove late)
  := by
  have hterminated := damages_terminated h
  cases h with
  | @mk db' db writer compactor' compactor hdb hcompactor =>
      rw [compactorFailMove, compactorFailMove]
      cases hcompactor with
      | @writing toCompact' toCompact merged number file htables =>
          cases late with
          | false => exact .some (Move.damages_none (fun _ _ _ => hterminated))
          | true =>
              dsimp only
              cases hmove : file.move number 0 with
              | none => exact .some (Move.damages_none (fun _ _ _ => hterminated))
              | some move =>
                  have hc := FileWrite.respects_move hmove
                  exact .some (Move.damages_call hc (fun _ _ _ => hterminated))
      | deleting hold =>
          cases hold with
          | nil => exact .none
          | cons _ hold => exact .some (Move.damages_silent (.running (.mk hdb (.deleting hold))))
      | _ => exact .none

end Process

/-! ### The constructor -/

namespace Opener

variable {o' o : Opener}

theorem damages_discovering (thr : UInt64) (trig : ℕ) {disk' disk : DbDisk}
    (hdisk : DiskDamages disk' disk) :
  SameNext (discovering thr trig disk') (discovering thr trig disk)
  := by
  have hdiscover := sameEnd_discover hdisk thr trig
  rw [discovering, discovering]
  generalize Database.discover thr trig disk' = result' at hdiscover
  generalize Database.discover thr trig disk = result at hdiscover
  cases hdiscover with
  | error e => exact ⟨.failed e, rfl⟩
  | ok hdb => exact ⟨.opening (.creatingLog hdb), rfl⟩

theorem damages_replayed {db' db : Database} (hdb : db'.Damages db) {disk' disk : DbDisk}
    (hdisk : DiskDamages disk' disk) :
  SameNext (replayed db' disk') (replayed db disk)
  := by
  have hlog : disk'.find? .walLog = disk.find? .walLog := by
    have hfile := hdisk .walLog
    generalize disk'.find? .walLog = log' at hfile
    generalize disk.find? .walLog = log at hfile
    cases hfile with
    | none => rfl
    | some hcontents => exact congrArg some hcontents
  obtain ⟨readers', rfl, hreaders⟩ := hdb
  rw [replayed, replayed, hlog]
  split_ifs
  · exact ⟨.opening (.truncating ⟨readers', rfl, hreaders⟩), rfl⟩
  · exact ⟨.running (.mk ⟨readers', rfl, hreaders⟩ .waiting), rfl⟩

theorem damages_move (h : o'.Damages o) (choice : ℕ) :
  Option.Rel Move.Damages (o'.move choice) (o.move choice)
  := by
  cases h with
  | cleaning thr trig leftover =>
      cases leftover with
      | nil =>
          exact .some (Move.damages_none (fun _ _ hdisk => damages_discovering thr trig hdisk))
      | cons n ns =>
          rw [Opener.move]
          cases (n :: ns)[choice]? with
          | none => exact .none
          | some m =>
              refine .some (Move.damages_call trivial ?_)
              exact fun _ _ _ => ⟨.opening (.cleaning thr trig _), rfl⟩
  | creatingLog hdb =>
      exact .some (Move.damages_call rfl (fun _ _ _ => ⟨.opening (.replaying hdb), rfl⟩))
  | replaying hdb =>
      exact .some (Move.damages_none (fun _ _ hdisk => damages_replayed hdb hdisk))
  | truncating hdb =>
      refine .some (Move.damages_call ?_ (fun _ _ _ => ⟨.running (.mk hdb .waiting), rfl⟩))
      rintro contents' contents rfl
      rfl

theorem damages_failMove (h : o'.Damages o) :
  Option.Rel Move.Damages o'.failMove o.failMove
  := by
  cases h with
  | cleaning thr trig leftover =>
      cases leftover with
      | nil => exact .some (Move.damages_silent (.failed .io))
      | cons n ns => exact .some (Move.damages_silent (.opening (.cleaning thr trig ns)))
  | creatingLog hdb => exact .some (Move.damages_silent (.failed .io))
  | replaying hdb => exact .some (Move.damages_silent (.failed .io))
  | truncating hdb => exact .some (Move.damages_silent (.failed .io))

end Opener

/-! ### The machine -/

/-- A process that starts reads the names of the files only. -/
theorem Move.damages_start (thr : UInt64) (trig : ℕ) :
  Move.Damages
    ⟨none, fun disk => (.opening (.cleaning thr trig (tmpNumbers disk)), [])⟩
    ⟨none, fun disk => (.opening (.cleaning thr trig (tmpNumbers disk)), [])⟩
  := by
  apply Move.damages_none
  intro disk' disk hdisk
  rw [tmpNumbers_damages hdisk]
  exact ⟨.opening (.cleaning thr trig _), rfl⟩

/-- The undamaged machine follows a move by the same action, or by a kill. -/
theorem Status.Damages.move {status' status : Status} (h : status'.Damages status) {a : Action}
    {m' : Move} (hmove : status'.move a = some m') :
  ∃ b m, (b = a ∨ b = .kill) ∧ status.move b = some m ∧ m'.Damages m
  := by
  have hsame : Option.Rel Move.Damages (status'.move a) (status.move a) →
      ∃ b m, (b = a ∨ b = .kill) ∧ status.move b = some m ∧ m'.Damages m := by
    intro hrel
    rw [hmove] at hrel
    cases hm : status.move a with
    | none =>
        rw [hm] at hrel
        cases hrel
    | some m =>
        rw [hm] at hrel
        cases hrel with
        | some hdamages => exact ⟨a, m, Or.inl rfl, hm, hdamages⟩
  cases h with
  | down =>
      apply hsame
      cases a with
      | start thr trig => exact .some (Move.damages_start thr trig)
      | _ => exact .none
  | failed e =>
      apply hsame
      cases a with
      | start thr trig => exact .some (Move.damages_start thr trig)
      | _ => exact .none
  | opening ho =>
      apply hsame
      cases a with
      | opener choice => exact Opener.damages_move ho choice
      | openerFail => exact Opener.damages_failMove ho
      | kill => exact .some (Move.damages_silent .down)
      | _ => exact .none
  | @running p' p hp =>
      cases a with
      | compactor count =>
          obtain hcorrupt | hrel := Process.damages_compactorMove hp count
          · obtain rfl := Option.some.inj (hcorrupt.symm.trans hmove)
            refine ⟨.kill, _, Or.inr rfl, rfl, ?_⟩
            exact Move.damages_none (fun _ _ _ => Process.damages_terminated hp)
          · exact hsame hrel
      | writer count => exact hsame (Process.damages_writerMove hp count)
      | writerFail late => exact hsame (Process.damages_writerFailMove hp late)
      | compactorFail late => exact hsame (Process.damages_compactorFailMove hp late)
      | kill => exact hsame (.some (Move.damages_none (fun _ _ _ => Process.damages_terminated hp)))
      | call op =>
          apply hsame
          cases hp with
          | @mk db' db writer compactor' compactor hdb hcompactor =>
              cases writer with
              | idle => exact .some (Move.damages_silent (.running (.mk hdb hcompactor)))
              | _ => exact .none
      | close =>
          apply hsame
          cases hp with
          | @mk db' db writer compactor' compactor hdb hcompactor =>
              cases hcompactor with
              | waiting =>
                  cases writer with
                  | idle => exact .some (Move.damages_silent .down)
                  | _ => exact .none
              | _ => exact .none
      | _ => exact hsame .none

/-- The undamaged machine follows a step by the same action, or by a kill. -/
theorem State.Damages.step {s' s t' : State} (h : s'.Damages s) {a : Action}
    (hstep : TinyLsm.step s' a = some t') :
  ∃ b t, (b = a ∨ b = .kill) ∧ TinyLsm.step s b = some t ∧ t'.Damages t
  := by
  obtain ⟨m', hmove, rfl⟩ := Option.map_eq_some_iff.mp hstep
  obtain ⟨b, m, hb, hm, hdamages⟩ := h.status.move hmove
  obtain ⟨hdisk, hstatus, hended⟩ := hdamages _ _ h.disk
  refine ⟨b, s.after m, hb, ?_, hdisk, hstatus, ?_⟩
  · rw [TinyLsm.step, hm, Option.map_some]
  · rw [State.after, State.after, h.calls, hended]

/-! ### Runs -/

/-- A run on damaged tables and one on the undamaged ones, whose steps meet the same condition. -/
theorem State.Damages.reaches (ok : State → Action → State → Prop)
    (hsame : ∀ s' s a t' t, s'.Damages s → ok s' a t' → ok s a t)
    (hkill : ∀ s t, ok s .kill t) {s' s t' : State} (hs : s'.Damages s)
    (h : Reaches TinyLsm.step ok s' t') :
  ∃ t, Reaches TinyLsm.step ok s t ∧ t'.Damages t
  := by
  apply h.simulates hs
  intro u' a v' u hu hstep hok
  obtain ⟨b, v, hb, hv, hdamages⟩ := hu.step hstep
  refine ⟨v, .tail b .refl hv ?_, hdamages⟩
  obtain rfl | rfl := hb
  · exact hsame u' u b v' v hu hok
  · exact hkill u v

theorem State.damages_of_down {s : State} (hdown : s.status = .down) {disk' : DbDisk}
    (hdisk : DiskDamages disk' s.disk) :
  State.Damages { s with disk := disk' } s
  where
    disk := hdisk
    status := by
      rw [hdown]
      exact .down
    calls := rfl

theorem State.Damages.running {t' t : State} (h : t'.Damages t) {p' : Process}
    (hp' : t'.status = .running p') :
  ∃ p, t.status = .running p ∧ p'.writer = p.writer ∧ p'.db.Damages p.db
  := by
  have hstatus := h.status
  rw [hp'] at hstatus
  generalize t.status = status at hstatus
  cases hstatus with
  | @running _ p hp =>
      refine ⟨p, rfl, ?_⟩
      cases hp with
      | mk hdb hcompactor => exact ⟨rfl, hdb⟩

/-- Whether a flush is apart from the compactions does not depend on the records. -/
theorem State.Damages.flushApart {s' s : State} (h : s'.Damages s) {a : Action}
    (ha : s'.FlushApart a) :
  s.FlushApart a
  := by
  have hstatus := h.status
  unfold State.FlushApart at ha ⊢
  generalize s'.status = status' at hstatus ha
  generalize s.status = status at hstatus
  cases hstatus with
  | @running p' p hp =>
      cases a with
      | writer count =>
          cases hp with
          | @mk db' db writer compactor' compactor hdb hcompactor =>
              have hsame : compactor.inProgress = compactor'.inProgress := by
                cases hcompactor with
                | _ => rfl
              intro op hw
              exact hsame.trans (ha op hw)
      | _ => trivial
  | _ => trivial

/-- A directory that any run has left is opened again with damaged tables: in every run from there, with
any number of kills and restarts, a lookup throws or answers with what the calls have written, and never
with anything else. -/
theorem damaged_answers {s t' : State} {disk' : DbDisk}
    (hs : Reaches step Apart State.init s) (hdown : s.status = .down)
    (hdisk : DiskDamages disk' s.disk) (h : Reaches step Apart { s with disk := disk' } t') :
  (∀ e, t'.status ≠ .failed e)
    ∧ ∀ p', t'.status = .running p' → p'.writer = .idle → ∃ ops, Resolves t'.calls ops
      ∧ (∀ key, SameOrCorrupt (p'.db.get key) (.ok (contents ops key)))
      ∧ ∀ start stop, ∃ pairs, SameOrCorrupt (p'.db.scan start stop) (.ok pairs)
        ∧ IsScan (contents ops) start stop pairs
  := by
  obtain ⟨t, hreach, ht⟩ := (State.damages_of_down hdown hdisk).reaches Apart
    (fun _ _ _ _ _ hu ha => ⟨ha.1, ha.2.1, hu.flushApart ha.2.2⟩)
    (fun s _ => ⟨rfl, trivial, by simp [State.FlushApart]⟩) h
  have hsound := sound_of_apart (hs.trans hreach)
  have hmeans := hsound.means
  constructor
  · intro e he
    have hstatus := ht.status
    rw [he] at hstatus
    generalize t.status = status at hstatus hmeans
    cases hstatus with
    | failed e => exact hmeans
  · intro p' hp' hw
    obtain ⟨p, hp, hwriter, hdb⟩ := ht.running hp'
    have hvalid := hsound.valid hp
    rw [hp] at hmeans
    obtain ⟨ops, hresolves, hview⟩ := hmeans.view
    have happlied : p.writer.applied = [] := by
      rw [← hwriter, hw]
      rfl
    rw [happlied, List.append_nil] at hview
    refine ⟨ops, ht.calls ▸ hresolves, ?_, ?_⟩
    · intro key
      rw [← hview, ← Database.get_eq_view hvalid]
      exact hdb.get key
    · intro start stop
      obtain ⟨pairs, hpairs, his⟩ := Database.scan_eq_view hvalid start stop
      refine ⟨pairs, ?_, hview ▸ his⟩
      rw [← hpairs]
      exact hdb.scan start stop

/-! ### A run -/

theorem diskDamages_insert {disk : DbDisk} {n : ℕ} {d : DamagedTable}
    (h : disk.find? (.sst n) = some d.table.file) :
  DiskDamages (disk.insert (.sst n) d.file) disk
  := by
  intro name
  rw [OrderedMap.find?_insert]
  split_ifs with hname
  · subst hname
    rw [h]
    exact .some (Or.inr ⟨d, rfl, rfl⟩)
  · cases disk.find? name with
    | none => exact .none
    | some contents =>
        apply Option.Rel.some
        cases name with
        | sst m => exact Or.inl rfl
        | _ => rfl

/-- A table of one record, which has another value. -/
def changedTable : DamagedTable where
  table :=
    { entries := OrderedMap.empty.insert [97] ⟨[1], false⟩
      inRange := by decide +kernel
      fits := by decide +kernel }
  pieces :=
    [⟨([97], ⟨[1], false⟩), some (putUint32LE (crc32 (recordBody .put [97] [1]))
      ++ ((recordBody .put [97] [1]).take 10 ++ [7] ++ []))⟩]
  frames := rfl
  damaged := by
    simp only [List.forall_mem_cons]
    refine ⟨?_, by simp⟩
    intro bad hbad
    obtain rfl := Option.some.inj hbad
    exact .body (w := [1]) (by decide) rfl (by decide) (by decide) (Or.inr (by decide))

/-- One call is flushed, and the process is killed. -/
def flushedRun : List Action :=
  launchActions 0 2 ++ flushActions (.put [97] [1]) 52 ++ [.kill]

/-- No process runs, and the file is that of the first table. -/
def State.leavesTable (s : State) (contents : Bytes) : Bool :=
  match s.status with
  | .down => decide (s.disk.find? (.sst 1) = some contents)
  | _ => false

/-- The process answers the lookup with an exception. -/
def State.detects (s : State) (key : Bytes) : Bool :=
  match s.status with
  | .running p => p.unlocked && decide (p.db.get key = .error .corruptBlock)
  | _ => false

theorem State.leavesTable_iff {s : State} {contents : Bytes} :
  s.leavesTable contents = true ↔ s.status = .down ∧ s.disk.find? (.sst 1) = some contents
  := by
  rw [State.leavesTable]
  cases s.status with
  | down => simp
  | _ => simp

theorem State.detects_iff {s : State} {key : Bytes} :
  s.detects key = true
    ↔ ∃ p, s.status = .running p ∧ p.writer = .idle ∧ p.db.get key = .error .corruptBlock
  := by
  rw [State.detects]
  cases s.status with
  | running p => simp [Process.unlocked_iff]
  | _ => simp

/-- The database is opened on the table with the changed value. -/
theorem exists_run_changedTable :
  ∃ s t' p', run (guarded step State.apart) State.init flushedRun = some s
    ∧ s.status = .down
    ∧ DiskDamages (s.disk.insert (.sst 1) changedTable.file) s.disk
    ∧ run (guarded step State.apart) { s with disk := s.disk.insert (.sst 1) changedTable.file }
        (launchActions 0 2) = some t'
    ∧ t'.status = .running p' ∧ p'.writer = .idle ∧ p'.db.get [97] = .error .corruptBlock
  := by
  have hrun : (run (guarded step State.apart) State.init flushedRun).any
      (fun s => s.leavesTable changedTable.table.file && ((run (guarded step State.apart)
        { s with disk := s.disk.insert (.sst 1) changedTable.file } (launchActions 0 2)).any
          (fun t => t.detects [97]))) = true := by
    decide +kernel
  obtain ⟨s, hs, htest⟩ := exists_of_run hrun
  rw [Bool.and_eq_true] at htest
  obtain ⟨hleaves, hopened⟩ := htest
  obtain ⟨hdown, hfind⟩ := State.leavesTable_iff.mp hleaves
  obtain ⟨t', ht', hdetects⟩ := exists_of_run hopened
  obtain ⟨p', hp', hw, hget⟩ := State.detects_iff.mp hdetects
  exact ⟨s, t', p', hs, hdown, diskDamages_insert hfind, ht', hp', hw, hget⟩

theorem damaged_answers_changed :
  ∃ s t' p', run (guarded step State.apart) State.init flushedRun = some s
    ∧ run (guarded step State.apart) { s with disk := s.disk.insert (.sst 1) changedTable.file }
        (launchActions 0 2) = some t'
    ∧ t'.status = .running p' ∧ p'.db.get [97] = .error .corruptBlock
    ∧ ∃ ops, Resolves t'.calls ops
      ∧ ∀ key, SameOrCorrupt (p'.db.get key) (.ok (contents ops key))
  := by
  obtain ⟨s, t', p', hs, hdown, hdisk, ht', hp', hw, hget⟩ := exists_run_changedTable
  have hreach : Reaches step Apart State.init s :=
    Reaches.of_run hs (fun _ _ _ ha => flushApart_of_apart ha)
  have hreach' : Reaches step Apart { s with disk := s.disk.insert (.sst 1) changedTable.file } t' :=
    Reaches.of_run ht' (fun _ _ _ ha => flushApart_of_apart ha)
  obtain ⟨ops, hresolves, hlookups, -⟩ :=
    (damaged_answers hreach hdown hdisk hreach').2 p' hp' hw
  exact ⟨s, t', p', hs, ht', hp', hget, ops, hresolves, hlookups⟩

end TinyLsm
