import TinyLsm.Steps
import TinyLsm.Directory
import TinyLsm.Reading

/-!
# Well-formed processes

The structural invariant of a process and its directory: the SSTables on disk are those of
the generations of the process, with distinct numbers below the counter; the table a
compaction has a number for does not exist yet; and a temporary file holds what has been
written to it.  Every step without a failing call keeps it, provided the tables that are
flushed are accepted by `SSTableReader`.
-/

namespace TinyLsm

open FileSystem

/-! ### Files being written -/

/-- How far the write of the file of `entries` to the table `n` has come. -/
def FileWrite.Holds (file : FileWrite) (disk : DbDisk) (n : ℕ) (entries : EntryMap) : Prop :=
  match file with
  | creating m => m = entries
  | writing rest =>
      ∃ written, disk.find? (.tmp n) = some written
        ∧ writeSSTable entries = .ok (written ++ rest)
  | synced =>
      ∃ contents, disk.find? (.tmp n) = some contents ∧ writeSSTable entries = .ok contents

namespace FileWrite

variable {file file' : FileWrite} {disk disk' : DbDisk} {n : ℕ} {entries : EntryMap}
  {c : DbSyscall}

theorem Holds.congr (h : file.Holds disk n entries)
    (hdisk : disk'.find? (.tmp n) = disk.find? (.tmp n)) :
  file.Holds disk' n entries
  := by
  cases file with
  | creating m => exact h
  | writing rest =>
      obtain ⟨written, hfind, hwrite⟩ := h
      exact ⟨written, hdisk.trans hfind, hwrite⟩
  | synced =>
      obtain ⟨contents, hfind, hwrite⟩ := h
      exact ⟨contents, hdisk.trans hfind, hwrite⟩

/-- A step keeps what the temporary file is to hold. -/
theorem Step.holds (hstep : file.Step n c file') (h : file.Holds disk n entries) :
  file'.Holds (c.exec disk) n entries
  := by
  cases hstep with
  | create hw =>
      obtain rfl : _ = entries := h
      refine ⟨[], ?_, hw⟩
      simp [Syscall.exec]
  | @append written rest hne =>
      obtain ⟨before, hfind, hwrite⟩ := h
      refine ⟨before ++ written, ?_, ?_⟩
      · simp [Syscall.exec, hfind]
      · rw [hwrite, List.append_assoc]
  | sync =>
      obtain ⟨contents, hfind, hwrite⟩ := h
      rw [List.append_nil] at hwrite
      exact ⟨contents, hfind, hwrite⟩

/-- A step changes no file but the temporary one. -/
theorem Step.find?_exec (hstep : file.Step n c file') {name : FileName}
    (hname : name ≠ .tmp n) :
  (c.exec disk).find? name = disk.find? name
  := by
  apply Syscall.find?_exec_of_notMem
  cases hstep with
  | create hw => simpa [Syscall.files] using hname
  | append hne => simpa [Syscall.files] using hname
  | sync => simp [Syscall.files]

end FileWrite

/-! ### Generations -/

/-- The tables on disk in the order of their age.  A compacted table comes right after the
tables it was made from, whether or not these are still listed. -/
def Process.generations (p : Process) : List SSTableReader :=
  match p.compactor with
  | .swapping toCompact compacted =>
      toCompact ++ compacted :: p.db.sstables.drop toCompact.length
  | .deleting old => old ++ p.db.sstables
  | _ => p.db.sstables

/-- What the position of the compaction thread says about the members and the files. -/
def Compactor.WellFormed (c : Compactor) (db : Database) (disk : DbDisk) : Prop :=
  match c with
  | merging toCompact => toCompact <+: db.sstables
  | allocating toCompact merged => toCompact <+: db.sstables ∧ merged.InRange
  | writing toCompact merged n file =>
      toCompact <+: db.sstables ∧ (∀ r ∈ toCompact, r.path < n) ∧ merged.InRange
        ∧ n < db.nextSstableNumber ∧ (∀ r ∈ db.sstables, r.path ≠ n) ∧ file.Holds disk n merged
  | swapping toCompact compacted =>
      toCompact <+: db.sstables ∧ ∀ r ∈ toCompact, r.path < compacted.path
  | _ => True

/-- What the position of the writer says about the members and the files. -/
def Writer.WellFormed (w : Writer) (db : Database) (disk : DbDisk) : Prop :=
  match w with
  | flushing _ file => file.Holds disk db.nextSstableNumber db.memtable.entries
  | _ => True

theorem Writer.WellFormed.congr {w : Writer} {db db' : Database} {disk disk' : DbDisk}
    (h : w.WellFormed db disk) (hnext : db'.nextSstableNumber = db.nextSstableNumber)
    (hmem : db'.memtable = db.memtable)
    (htmp : disk'.find? (.tmp db.nextSstableNumber) = disk.find? (.tmp db.nextSstableNumber)) :
  w.WellFormed db' disk'
  := by
  cases w with
  | flushing op file =>
      simp only [Writer.WellFormed, hnext, hmem] at h ⊢
      exact FileWrite.Holds.congr h htmp
  | _ => trivial

/-- What the compaction thread relies on: the tables, the counter and the temporary files of
reserved numbers. -/
theorem Compactor.WellFormed.congr {c : Compactor} {db db' : Database} {disk disk' : DbDisk}
    (h : c.WellFormed db disk) (hsst : db'.sstables = db.sstables)
    (hnext : db'.nextSstableNumber = db.nextSstableNumber)
    (htmp : ∀ n, n < db.nextSstableNumber → disk'.find? (.tmp n) = disk.find? (.tmp n)) :
  c.WellFormed db' disk'
  := by
  cases c with
  | writing toCompact merged n file =>
      simp only [Compactor.WellFormed, hsst, hnext] at h ⊢
      obtain ⟨hpre, hpath, hin, hlt, hne, hfile⟩ := h
      exact ⟨hpre, hpath, hin, hlt, hne, hfile.congr (htmp n hlt)⟩
  | _ =>
      simp only [Compactor.WellFormed, hsst] at h ⊢
      try exact h

/-- What the compaction thread relies on stays when a flush renames its table and lists it. -/
theorem Compactor.WellFormed.pushTable {c : Compactor} {db : Database} {disk : DbDisk}
    (h : c.WellFormed db disk) {r : SSTableReader} (hpath : r.path = db.nextSstableNumber) :
  c.WellFormed (db.pushTable r) ((Syscall.rename (.tmp db.nextSstableNumber)
    (.sst db.nextSstableNumber)).exec disk)
  := by
  cases c with
  | merging toCompact =>
      simp only [Compactor.WellFormed, Database.pushTable] at h ⊢
      exact h.trans (List.prefix_append _ _)
  | allocating toCompact merged =>
      simp only [Compactor.WellFormed, Database.pushTable] at h ⊢
      exact ⟨h.1.trans (List.prefix_append _ _), h.2⟩
  | writing toCompact merged n file =>
      simp only [Compactor.WellFormed, Database.pushTable] at h ⊢
      obtain ⟨hpre, hpaths, hin, hlt, hne, hfile⟩ := h
      refine ⟨hpre.trans (List.prefix_append _ _), hpaths, hin, by omega, ?_, ?_⟩
      · intro r' hr'
        rcases List.mem_append.mp hr' with hr' | hr'
        · exact hne r' hr'
        · obtain rfl := List.mem_singleton.mp hr'
          omega
      · apply hfile.congr
        apply Syscall.find?_exec_of_notMem
        simp only [Syscall.files, List.mem_cons, FileName.tmp.injEq, reduceCtorEq,
          List.not_mem_nil, or_false]
        omega
  | swapping toCompact compacted =>
      simp only [Compactor.WellFormed, Database.pushTable] at h ⊢
      exact ⟨h.1.trans (List.prefix_append _ _), h.2⟩
  | _ => trivial

structure Process.WellFormed (p : Process) (disk : DbDisk) : Prop where
  holds : Holds disk p.generations
  distinct : (p.generations.map SSTableReader.path).Nodup
  below : ∀ r ∈ p.generations, r.path < p.db.nextSstableNumber
  loaded : ∀ r ∈ p.generations, r.Loaded
  compactor : p.compactor.WellFormed p.db disk
  writer : p.writer.WellFormed p.db disk

namespace Process

variable {p : Process} {disk disk' : DbDisk}

/-- A table is pushed at the end of the generations. -/
theorem generations_pushTable (h : p.compactor.WellFormed p.db disk) (r : SSTableReader)
    (w : Writer) :
  ({ p with db := p.db.pushTable r, writer := w } : Process).generations = p.generations ++ [r]
  := by
  simp only [generations, Database.pushTable]
  cases hc : p.compactor with
  | swapping toCompact compacted =>
      rw [hc] at h
      have hle : toCompact.length ≤ p.db.sstables.length := List.IsPrefix.length_le h.1
      simp [List.drop_append_of_le_length hle]
  | deleting old => simp
  | _ => rfl

/-- The tables listed are among the generations. -/
theorem mem_generations (h : p.compactor.WellFormed p.db disk) {r : SSTableReader}
    (hr : r ∈ p.db.sstables) :
  r ∈ p.generations
  := by
  simp only [generations]
  cases hc : p.compactor with
  | swapping toCompact compacted =>
      rw [hc] at h
      obtain ⟨⟨rest, hrest⟩, -⟩ := h
      rw [← hrest] at hr ⊢
      simp only [List.drop_left]
      rcases List.mem_append.mp hr with hr | hr
      · simp [hr]
      · simp [hr]
  | deleting old => simp [hr]
  | _ => simpa using hr

/-- The swap moves the compacted table into the list and leaves the generations. -/
theorem generations_swapIn {toCompact : List SSTableReader} {compacted : SSTableReader}
    (hc : p.compactor = .swapping toCompact compacted) (h : toCompact <+: p.db.sstables) :
  ({ p with
      db := p.db.swapIn compacted toCompact.length
      compactor := .deleting (p.db.sstables.take toCompact.length) } : Process).generations
    = p.generations
  := by
  obtain ⟨rest, hrest⟩ := h
  simp only [generations, hc, Database.swapIn, ← hrest, List.take_left]

/-- A change of the writer that keeps the tables and, among the files, the SSTables and the
temporary files of reserved numbers. -/
theorem WellFormed.setWriter (h : p.WellFormed disk) {db : Database} {w : Writer}
    (hsst : db.sstables = p.db.sstables) (hnext : db.nextSstableNumber = p.db.nextSstableNumber)
    (hdisk : ∀ n, disk'.find? (.sst n) = disk.find? (.sst n))
    (htmp : ∀ n, n < p.db.nextSstableNumber → disk'.find? (.tmp n) = disk.find? (.tmp n))
    (hw : w.WellFormed db disk') :
  ({ p with db := db, writer := w } : Process).WellFormed disk'
  := by
  have hgen : ({ p with db := db, writer := w } : Process).generations = p.generations := by
    simp only [generations, hsst]
  constructor
  · rw [hgen]
    exact h.holds.congr hdisk
  · rw [hgen]
    exact h.distinct
  · rw [hgen]
    simpa only [hnext] using h.below
  · rw [hgen]
    exact h.loaded
  · exact h.compactor.congr hsst hnext htmp
  · exact hw

/-- A change of the compaction thread that keeps the tables, the counter and the SSTables,
and the temporary file a flush writes to. -/
theorem WellFormed.setCompactor (h : p.WellFormed disk) {db : Database} {c : Compactor}
    (hgen : ({ p with db := db, compactor := c } : Process).generations = p.generations)
    (hnext : db.nextSstableNumber = p.db.nextSstableNumber) (hmem : db.memtable = p.db.memtable)
    (hdisk : ∀ n, disk'.find? (.sst n) = disk.find? (.sst n))
    (htmp : disk'.find? (.tmp p.db.nextSstableNumber) = disk.find? (.tmp p.db.nextSstableNumber))
    (hc : c.WellFormed db disk') :
  ({ p with db := db, compactor := c } : Process).WellFormed disk'
  := by
  constructor
  · rw [hgen]
    exact h.holds.congr hdisk
  · rw [hgen]
    exact h.distinct
  · rw [hgen]
    simpa only [hnext] using h.below
  · rw [hgen]
    exact h.loaded
  · exact hc
  · exact h.writer.congr hnext hmem htmp

/-- The rename of a file that has been written, and the reader opened on it. -/
theorem openSSTable_rename {n : ℕ} {contents : Bytes}
    (h : disk.find? (.tmp n) = some contents) :
  openSSTable ((Syscall.rename (.tmp n) (.sst n)).exec disk) n = SSTableReader.load n contents
  := by
  simp [openSSTable, Syscall.exec, h]

/-- A complete file of entries in range is opened as their table. -/
theorem openSSTable_written {n : ℕ} {entries : EntryMap}
    (h : FileWrite.synced.Holds disk n entries) (hin : entries.InRange) :
  ∃ t : Table, t.entries = entries
    ∧ openSSTable ((Syscall.rename (.tmp n) (.sst n)).exec disk) n = .ok (t.reader n)
  := by
  obtain ⟨contents, htmp, hwrite⟩ := h
  obtain ⟨t, hentries, hload⟩ := load_of_inRange hin hwrite n
  use t, hentries
  rw [openSSTable_rename htmp, hload]

/-- The rename of a table to a fresh number below the counter, wherever the table is put among
the generations. -/
theorem WellFormed.renameTable (h : p.WellFormed disk) {q : Process} {n : ℕ}
    {r : SSTableReader} {contents : Bytes} (hfind : disk.find? (.tmp n) = some contents)
    (hload : SSTableReader.load n contents = .ok r)
    (hperm : (r :: p.generations).Perm q.generations) (hfresh : ∀ r' ∈ p.generations, r'.path ≠ n)
    (hlt : n < q.db.nextSstableNumber) (hnext : p.db.nextSstableNumber ≤ q.db.nextSstableNumber)
    (hc : q.compactor.WellFormed q.db ((Syscall.rename (.tmp n) (.sst n)).exec disk))
    (hw : q.writer.WellFormed q.db ((Syscall.rename (.tmp n) (.sst n)).exec disk)) :
  q.WellFormed ((Syscall.rename (.tmp n) (.sst n)).exec disk)
  := by
  obtain ⟨rfl, rfl⟩ := SSTableReader.load_eq_ok hload
  constructor
  · exact (h.holds.rename hfresh hfind).perm hperm
  · apply (hperm.map SSTableReader.path).nodup
    rw [List.map_cons, List.nodup_cons]
    constructor
    · rw [List.mem_map]
      rintro ⟨r', hr', heq⟩
      exact hfresh r' hr' heq
    · exact h.distinct
  · intro r' hr'
    rcases List.mem_cons.mp (hperm.mem_iff.mpr hr') with rfl | hr'
    · exact hlt
    · exact (h.below r' hr').trans_le hnext
  · intro r' hr'
    rcases List.mem_cons.mp (hperm.mem_iff.mpr hr') with rfl | hr'
    · exact SSTableReader.loaded_of_load hload
    · exact h.loaded r' hr'
  · exact hc
  · exact hw

/-- The table a flush is about to rename is one `SSTableReader` accepts. -/
def FlushAccepted (p : Process) : Prop :=
  ∀ op, p.writer = .flushing op .synced →
    ∃ r, SSTableReader.load p.db.nextSstableNumber (sstableFile p.db.memtable.entries) = .ok r

end Process

/-! ### Steps -/

/-- Every SSTable of the directory is one `SSTableReader` accepts. -/
def Loadable (disk : DbDisk) : Prop :=
  ∀ n contents, disk.find? (.sst n) = some contents →
    ∃ r, SSTableReader.load n contents = .ok r

theorem Loadable.congr {disk disk' : DbDisk} (h : Loadable disk)
    (hdisk : ∀ n, disk'.find? (.sst n) = disk.find? (.sst n)) :
  Loadable disk'
  := by
  intro n contents hfind
  exact h n contents ((hdisk n).symm.trans hfind)

theorem Process.WellFormed.loadable {p : Process} {disk : DbDisk} (h : p.WellFormed disk) :
  Loadable disk
  := by
  intro n contents hfind
  obtain ⟨r, hr, rfl, rfl⟩ := (h.holds n contents).mp hfind
  exact ⟨r, h.loaded r hr⟩

/-- A process with these members, between its calls. -/
def Database.idle (db : Database) : Process :=
  ⟨db, .idle, .waiting⟩

def Status.WellFormed (status : Status) (disk : DbDisk) : Prop :=
  match status with
  | down => Loadable disk
  | failed _ => Loadable disk
  | opening (.cleaning _ _ _) => Loadable disk
  | opening (.creatingLog db) => db.idle.WellFormed disk
  | opening (.replaying db) => db.idle.WellFormed disk
  | opening (.truncating db _) => db.idle.WellFormed disk
  | running p => p.WellFormed disk

namespace Process

variable {p : Process} {disk disk' : DbDisk} {c : Option DbSyscall} {status : Status}
  {calls : List Call}

/-- A step of the writer keeps the process well formed. -/
theorem WellFormed.writerStep (h : p.WellFormed disk) (hacc : p.FlushAccepted)
    (hdisk : disk' = Syscall.execOption c disk)
    (hstep : p.WriterStep disk' c status calls) :
  status.WellFormed disk'
  := by
  subst hdisk
  cases hstep with
  | append hw hne =>
      rw [Syscall.execOption_some]
      apply h.setWriter rfl rfl
      · intro n
        apply Syscall.find?_exec_of_notMem
        simp [Syscall.files]
      · intro n _
        apply Syscall.find?_exec_of_notMem
        simp [Syscall.files]
      · trivial
  | sync hw =>
      exact h.setWriter rfl rfl (fun n => rfl) (fun n _ => rfl) trivial
  | apply hw hflush =>
      exact h.setWriter rfl rfl (fun n => rfl) (fun n _ => rfl) trivial
  | startFlush hw hflush =>
      exact h.setWriter rfl rfl (fun n => rfl) (fun n _ => rfl) rfl
  | write hw hfile =>
      have hholds := h.writer
      rw [hw] at hholds
      apply h.setWriter rfl rfl
      · exact fun n => hfile.find?_exec (by simp)
      · intro n hn
        apply hfile.find?_exec
        simpa using hn.ne
      · exact hfile.holds hholds
  | @rename op r hw hopen =>
      have hholds := h.writer
      rw [hw] at hholds
      obtain ⟨contents, hfind, hwrite⟩ := hholds
      simp only [Syscall.execOption_some] at hopen ⊢
      rw [openSSTable_rename hfind] at hopen
      have hperm : (r :: p.generations).Perm
          ({ p with db := p.db.pushTable r, writer := .resetting op } : Process).generations := by
        rw [generations_pushTable h.compactor]
        exact (List.perm_append_singleton r p.generations).symm
      apply h.renameTable hfind hopen hperm
      · exact fun r' hr' => (h.below r' hr').ne
      · exact Nat.lt_succ_self _
      · exact Nat.le_succ _
      · exact h.compactor.pushTable (SSTableReader.load_eq_ok hopen).1
      · trivial
  | @reject op e hw hopen =>
      have hholds := h.writer
      rw [hw] at hholds
      obtain ⟨contents, hfind, hwrite⟩ := hholds
      obtain ⟨r, hr⟩ := hacc op hw
      simp only [Syscall.execOption_some] at hopen
      rw [openSSTable_rename hfind, eq_sstableFile hwrite, hr] at hopen
      simp at hopen
  | reset hw =>
      rw [Syscall.execOption_some]
      apply h.setWriter p.db.clearMemtable_sstables p.db.clearMemtable_nextSstableNumber
      · intro n
        apply Syscall.find?_exec_of_notMem
        simp [Syscall.files]
      · intro n _
        apply Syscall.find?_exec_of_notMem
        simp [Syscall.files]
      · trivial

/-- A step of the compaction thread keeps the process well formed. -/
theorem WellFormed.compactorStep (h : p.WellFormed disk)
    (hdisk : disk' = Syscall.execOption c disk) (hstep : p.CompactorStep disk' c status calls) :
  status.WellFormed disk'
  := by
  have hcompactor := h.compactor
  subst hdisk
  cases hstep with
  | consume hc hreq =>
      refine h.setCompactor ?_ rfl rfl (fun n => rfl) rfl trivial
      simp only [generations, hc]
  | skip hc hw hlen =>
      refine h.setCompactor ?_ rfl rfl (fun n => rfl) rfl trivial
      simp only [generations, hc]
  | snapshot hc hw hlen =>
      apply h.setCompactor _ rfl rfl (fun n => rfl) rfl
      · exact List.prefix_refl _
      · simp only [generations, hc]
  | merge hc hmerge =>
      rw [hc] at hcompactor
      apply h.setCompactor _ rfl rfl (fun n => rfl) rfl
      · exact ⟨hcompactor, inRange_compactedEntries hmerge⟩
      · simp only [generations, hc]
  | mergeFail hc hmerge => exact h.loadable
  | @allocate toCompact merged hc hw =>
      rw [hc] at hcompactor
      obtain ⟨hpre, hin⟩ := hcompactor
      have hgen : p.generations = p.db.sstables := by
        simp only [generations, hc]
      have hbelow := h.below
      rw [hgen] at hbelow
      constructor
      · have hholds := h.holds
        rw [hgen] at hholds
        exact hholds
      · have hdistinct := h.distinct
        rw [hgen] at hdistinct
        exact hdistinct
      · intro r hr
        exact (hbelow r hr).trans (Nat.lt_succ_self _)
      · have hloaded := h.loaded
        rw [hgen] at hloaded
        exact hloaded
      · exact ⟨hpre, fun r hr => hbelow r (hpre.subset hr), hin, Nat.lt_succ_self _,
          fun r hr => (hbelow r hr).ne, rfl⟩
      · simp only [hw]
        trivial
  | @write toCompact merged n file file' c hc hfile =>
      rw [hc] at hcompactor
      obtain ⟨hpre, hpaths, hin, hlt, hne, hholds⟩ := hcompactor
      apply h.setCompactor _ rfl rfl
      · exact fun m => hfile.find?_exec (by simp)
      · apply hfile.find?_exec
        simpa using hlt.ne'
      · exact ⟨hpre, hpaths, hin, hlt, hne, hfile.holds hholds⟩
      · simp only [generations, hc]
  | @rename toCompact merged n r hc hopen =>
      rw [hc] at hcompactor
      obtain ⟨hpre, hpaths, hin, hlt, hne, contents, hfind, hwrite⟩ := hcompactor
      simp only [Syscall.execOption_some] at hopen ⊢
      rw [openSSTable_rename hfind] at hopen
      have hgen : p.generations = p.db.sstables := by
        simp only [generations, hc]
      obtain ⟨rest, hrest⟩ := hpre
      -- The new table is inserted between the compacted ones and the later ones.
      have hperm : (r :: p.generations).Perm
          ({ p with compactor := .swapping toCompact r } : Process).generations := by
        simp only [generations, hc, ← hrest, List.drop_left]
        exact List.perm_middle.symm
      apply h.renameTable hfind hopen hperm
      · rw [hgen]
        exact hne
      · exact hlt
      · exact Nat.le_refl _
      · refine ⟨⟨rest, hrest⟩, fun r' hr' => ?_⟩
        rw [(SSTableReader.load_eq_ok hopen).1]
        exact hpaths r' hr'
      · apply h.writer.congr rfl rfl
        apply Syscall.find?_exec_of_notMem
        simp only [Syscall.files, List.mem_cons, FileName.tmp.injEq, reduceCtorEq,
          List.not_mem_nil, or_false]
        omega
  | @reject toCompact merged n e hc hopen =>
      rw [hc] at hcompactor
      obtain ⟨-, -, hin, -, -, hholds⟩ := hcompactor
      obtain ⟨t, -, hload⟩ := openSSTable_written hholds hin
      rw [Syscall.execOption_some, hload] at hopen
      simp at hopen
  | swap hc hw =>
      rw [hc] at hcompactor
      have hgen := generations_swapIn hc hcompactor.1
      exact h.setCompactor hgen rfl rfl (fun n => rfl) rfl trivial
  | @unlink r old hc =>
      have hgen : p.generations = r :: (old ++ p.db.sstables) := by
        simp only [generations, hc]
        rfl
      have hdistinct := h.distinct
      rw [hgen, List.map_cons, List.nodup_cons] at hdistinct
      constructor
      · have hholds := h.holds
        rw [hgen] at hholds
        apply hholds.unlink
        intro r' hr' heq
        apply hdistinct.1
        rw [← heq]
        exact List.mem_map_of_mem hr'
      · exact hdistinct.2
      · intro r' hr'
        apply h.below
        rw [hgen]
        exact List.mem_cons_of_mem _ hr'
      · intro r' hr'
        apply h.loaded
        rw [hgen]
        exact List.mem_cons_of_mem _ hr'
      · trivial
      · apply h.writer.congr rfl rfl
        apply Syscall.find?_exec_of_notMem
        simp [Syscall.files]
  | deleted hc =>
      refine h.setCompactor ?_ rfl rfl (fun n => rfl) rfl trivial
      simp only [generations, hc]
      rfl
  | finish hc =>
      refine h.setCompactor ?_ rfl rfl (fun n => rfl) rfl trivial
      simp only [generations, hc]

end Process

/-! ### Opening -/

/-- The members the constructor has discovered fit the directory. -/
theorem Database.wellFormed_of_discover {thr : UInt64} {trig : ℕ} {disk : DbDisk}
    {db : Database} (h : Database.discover thr trig disk = .ok db) :
  db.idle.WellFormed disk
  := by
  rw [Database.discover] at h
  cases hopen : openTables disk with
  | error e => simp [hopen, bind, Except.bind] at h
  | ok readers =>
      simp only [hopen, bind, Except.bind, Except.ok.injEq] at h
      subst h
      have hascending := ascending_of_openTables hopen
      constructor
      · exact holds_of_openTables hopen
      · rw [List.Nodup, List.pairwise_map]
        exact hascending.imp (fun hlt => hlt.ne)
      · exact fun r hr => lt_nextNumber hascending hr
      · exact loaded_of_openTables hopen
      · trivial
      · trivial

/-- The constructor's steps keep the status well formed. -/
theorem Opener.wellFormed_step {o : Opener} {disk disk' : DbDisk} {c : Option DbSyscall}
    {status : Status} {calls : List Call} (h : (Status.opening o).WellFormed disk)
    (hdisk : disk' = Syscall.execOption c disk) (hstep : o.Step disk' c status calls) :
  status.WellFormed disk'
  := by
  subst hdisk
  cases hstep with
  | clean hn =>
      apply Loadable.congr h
      intro n
      apply Syscall.find?_exec_of_notMem
      simp [Syscall.files]
  | discover hdiscover => exact Database.wellFormed_of_discover hdiscover
  | reject hdiscover => exact h
  | createLog =>
      apply Process.WellFormed.setWriter h rfl rfl
      · intro n
        apply Syscall.find?_exec_of_notMem
        simp [Syscall.files]
      · intro n _
        apply Syscall.find?_exec_of_notMem
        simp [Syscall.files]
      · trivial
  | replayTorn hlog hlt =>
      exact Process.WellFormed.setWriter h rfl rfl (fun n => rfl) (fun n _ => rfl) trivial
  | replayWhole hlog hle =>
      exact Process.WellFormed.setWriter h rfl rfl (fun n => rfl) (fun n _ => rfl) trivial
  | truncate =>
      apply Process.WellFormed.setWriter h rfl rfl
      · intro n
        apply Syscall.find?_exec_of_notMem
        simp [Syscall.files]
      · intro n _
        apply Syscall.find?_exec_of_notMem
        simp [Syscall.files]
      · trivial

/-! ### Runs -/

/-- In this state the action does not let a flush rename a table that `SSTableReader` does
not accept. -/
def State.FlushAccepted (s : State) (a : Action) : Prop :=
  match s.status, a with
  | .running p, .writer _ => p.FlushAccepted
  | _, _ => True

theorem State.wellFormed_step {s t : State} {a : Action} (h : s.status.WellFormed s.disk)
    (hstep : step s a = some t) (ha : a.noFailure) (hacc : s.FlushAccepted a) :
  t.status.WellFormed t.disk
  := by
  obtain ⟨disk, status, calls⟩ := s
  obtain ⟨c, ended, hstatus, hdisk, -⟩ := step_cases hstep ha
  simp only at h hstatus hdisk
  generalize t.status = status' at hstatus
  generalize t.disk = disk' at hstatus hdisk
  cases hstatus with
  | start =>
      subst hdisk
      exact h
  | restart =>
      subst hdisk
      exact h
  | opener hopener => exact Opener.wellFormed_step h hdisk hopener
  | @killOpener o =>
      subst hdisk
      cases o with
      | cleaning thr trig leftover => exact h
      | creatingLog db => exact Process.WellFormed.loadable h
      | replaying db => exact Process.WellFormed.loadable h
      | truncating db validEnd => exact Process.WellFormed.loadable h
  | call hw =>
      subst hdisk
      exact Process.WellFormed.setWriter h rfl rfl (fun n => rfl) (fun n _ => rfl) trivial
  | writer hwriter => exact Process.WellFormed.writerStep h hacc hdisk hwriter
  | compactor hcompactor => exact Process.WellFormed.compactorStep h hdisk hcompactor
  | close hw hc =>
      subst hdisk
      exact Process.WellFormed.loadable h
  | kill =>
      subst hdisk
      exact Process.WellFormed.loadable h

/-- Every state reached from an empty directory without failing calls is well formed, as
long as the tables flushed are accepted. -/
theorem State.wellFormed_of_reaches {ok : State → Action → State → Prop} {s : State}
    (h : Transition.Reaches step ok State.init s)
    (hok : ∀ s a t, ok s a t → a.noFailure ∧ s.FlushAccepted a) :
  s.status.WellFormed s.disk
  := by
  apply h.invariant (I := fun s => s.status.WellFormed s.disk)
  · intro n contents hfind
    simp [State.init] at hfind
  · intro s a t hs hstep hguard
    obtain ⟨ha, hacc⟩ := hok s a t hguard
    exact State.wellFormed_step hs hstep ha hacc

end TinyLsm
