import TinyLsm.Database

/-!
# Directories of tables

Which readers stand for the SSTables of a directory (`Holds`), how the calls that add and
remove a table change this, and what opening the tables of a directory gives.
-/

namespace TinyLsm

open FileSystem

/-! ### Listing -/

theorem mem_sstFiles {disk : DbDisk} {n : ℕ} {c : Bytes} :
  (n, c) ∈ sstFiles disk ↔ disk.find? (.sst n) = some c
  := by
  rw [← OrderedMap.mem_entries, sstFiles, List.mem_filterMap]
  constructor
  · rintro ⟨⟨name, contents⟩, hmem, heq⟩
    cases name with
    | walLog => simp at heq
    | sst number =>
        simp only [Option.some.injEq, Prod.mk.injEq] at heq
        obtain ⟨rfl, rfl⟩ := heq
        exact hmem
    | tmp number => simp at heq
  · intro hmem
    exact ⟨(.sst n, c), hmem, rfl⟩

/-- The tables are listed in ascending order of their numbers. -/
theorem sorted_sstFiles (disk : DbDisk) :
  (sstFiles disk).Pairwise (fun a b => a.1 < b.1)
  := by
  rw [sstFiles, List.pairwise_filterMap]
  apply disk.sorted.imp
  rintro ⟨name, c⟩ ⟨name', c'⟩ hlt ⟨m, d⟩ heq ⟨m', d'⟩ heq'
  cases name with
  | walLog => simp at heq
  | tmp number => simp at heq
  | sst number =>
      cases name' with
      | walLog => simp at heq'
      | tmp number' => simp at heq'
      | sst number' =>
          simp only [Option.some.injEq, Prod.mk.injEq] at heq heq'
          obtain ⟨rfl, rfl⟩ := heq
          obtain ⟨rfl, rfl⟩ := heq'
          exact FileName.sst_lt_sst.mp hlt

/-! ### Readers -/

theorem SSTableReader.load_eq_ok {path : ℕ} {contents : Bytes} {r : SSTableReader}
    (h : SSTableReader.load path contents = .ok r) :
  r.path = path ∧ r.contents = contents
  := by
  rw [SSTableReader.load] at h
  cases hfooter : readFooter contents with
  | error e => simp [hfooter, bind, Except.bind] at h
  | ok sizes =>
      obtain ⟨indexOffset, indexSize⟩ := sizes
      simp only [hfooter, bind, Except.bind] at h
      split_ifs at h with hbounds
      cases hindex : readIndex
          ((contents.drop indexOffset.toNat).take indexSize.toNat) with
      | error e => simp [hindex] at h
      | ok index =>
          simp only [hindex, Except.ok.injEq] at h
          subst h
          exact ⟨rfl, rfl⟩

/-- The reader is what its constructor makes of the bytes it was loaded from. -/
def SSTableReader.Loaded (r : SSTableReader) : Prop :=
  SSTableReader.load r.path r.contents = .ok r

theorem SSTableReader.loaded_of_load {path : ℕ} {contents : Bytes} {r : SSTableReader}
    (h : SSTableReader.load path contents = .ok r) :
  r.Loaded
  := by
  obtain ⟨hpath, hcontents⟩ := load_eq_ok h
  rw [Loaded, hpath, hcontents, h]

/-- The SSTables of a directory are those the readers were loaded from. -/
def Holds (disk : DbDisk) (readers : List SSTableReader) : Prop :=
  ∀ n c, disk.find? (.sst n) = some c ↔ ∃ r ∈ readers, r.path = n ∧ r.contents = c

namespace Holds

variable {disk disk' : DbDisk} {readers readers' : List SSTableReader} {r : SSTableReader}

theorem congr (h : Holds disk readers)
    (hdisk : ∀ n, disk'.find? (.sst n) = disk.find? (.sst n)) :
  Holds disk' readers
  := by
  intro n c
  rw [hdisk]
  apply h

theorem perm (h : Holds disk readers) (hp : readers.Perm readers') :
  Holds disk readers'
  := by
  intro n c
  rw [h]
  simp only [hp.mem_iff]

/-- A number no reader has is that of no table. -/
theorem find?_eq_none (h : Holds disk readers) {n : ℕ} (hn : ∀ r ∈ readers, r.path ≠ n) :
  disk.find? (.sst n) = none
  := by
  cases hc : disk.find? (.sst n) with
  | none => rfl
  | some c =>
      obtain ⟨r, hr, hpath, -⟩ := (h n c).mp hc
      exact absurd hpath (hn r hr)

theorem find?_path (h : Holds disk readers) (hr : r ∈ readers) :
  disk.find? (.sst r.path) = some r.contents
  := (h _ _).mpr ⟨r, hr, rfl, rfl⟩

/-- The rename of a written file puts its table in the place of any with its number. -/
theorem replace {orphans : List SSTableReader} (h : Holds disk (readers ++ orphans))
    (hn : ∀ r' ∈ readers, r'.path ≠ r.path) (horphans : ∀ r' ∈ orphans, r'.path = r.path)
    (htmp : disk.find? (.tmp r.path) = some r.contents) :
  Holds ((Syscall.rename (.tmp r.path) (.sst r.path)).exec disk) (readers ++ [r])
  := by
  intro n c
  simp only [Syscall.exec, htmp, OrderedMap.find?_insert, OrderedMap.find?_erase,
    FileName.sst.injEq, reduceCtorEq, if_false, List.mem_append, List.mem_singleton]
  by_cases hpath : r.path = n
  · subst hpath
    simp only [if_true, Option.some.injEq]
    constructor
    · intro hc
      exact ⟨r, Or.inr rfl, rfl, hc⟩
    · rintro ⟨r', hr' | rfl, hpath, hc⟩
      · exact absurd hpath (hn r' hr')
      · exact hc
  · simp only [hpath, if_false]
    rw [h]
    constructor
    · rintro ⟨r', hr', hpath', hc⟩
      obtain hr' | hr' := List.mem_append.mp hr'
      · exact ⟨r', Or.inl hr', hpath', hc⟩
      · exact absurd ((horphans r' hr').symm.trans hpath') hpath
    · rintro ⟨r', hr' | rfl, hpath', hc⟩
      · exact ⟨r', List.mem_append_left _ hr', hpath', hc⟩
      · exact absurd hpath' hpath

/-- The rename of a written file adds its table. -/
theorem rename (h : Holds disk readers) (hn : ∀ r' ∈ readers, r'.path ≠ r.path)
    (htmp : disk.find? (.tmp r.path) = some r.contents) :
  Holds ((Syscall.rename (.tmp r.path) (.sst r.path)).exec disk) (r :: readers)
  := by
  have hnil : Holds disk (readers ++ []) := by
    rw [List.append_nil]
    exact h
  have hreplace := hnil.replace hn (fun r' hr' => absurd hr' List.not_mem_nil) htmp
  exact hreplace.perm (List.perm_append_singleton r readers)

/-- The removal of a table's file leaves the other tables. -/
theorem unlink (h : Holds disk (r :: readers)) (hn : ∀ r' ∈ readers, r'.path ≠ r.path) :
  Holds ((Syscall.unlink (.sst r.path)).exec disk) readers
  := by
  intro n c
  simp only [Syscall.exec, OrderedMap.find?_erase, FileName.sst.injEq]
  by_cases hpath : r.path = n
  · subst hpath
    simp only [if_true, reduceCtorEq, false_iff]
    rintro ⟨r', hr', hpath, -⟩
    exact hn r' hr' hpath
  · rw [if_neg hpath, h]
    simp [hpath]

end Holds

/-! ### Opening the tables -/

/-- Elements that are each related to something are related to a list. -/
theorem exists_forall₂_iff {α β : Type} {R : α → β → Prop} {as : List α} :
  (∃ bs, List.Forall₂ R as bs) ↔ ∀ a ∈ as, ∃ b, R a b
  := by
  induction as with
  | nil => simp
  | cons a as ih =>
      rw [List.forall_mem_cons, ← ih]
      constructor
      · rintro ⟨_, hforall⟩
        obtain ⟨b, bs, hb, hbs, -⟩ := List.forall₂_cons_left_iff.mp hforall
        exact ⟨⟨b, hb⟩, bs, hbs⟩
      · rintro ⟨⟨b, hb⟩, bs, hbs⟩
        exact ⟨b :: bs, .cons hb hbs⟩

theorem mapM_eq_ok {α β ε : Type} {f : α → Except ε β} {as : List α} {bs : List β} :
  as.mapM f = .ok bs ↔ List.Forall₂ (fun a b => f a = .ok b) as bs
  := by
  induction as generalizing bs with
  | nil =>
      rw [List.mapM_nil, List.forall₂_nil_left_iff]
      change Except.ok [] = .ok bs ↔ _
      rw [Except.ok.injEq, eq_comm]
  | cons a as ih =>
      rw [List.mapM_cons, List.forall₂_cons_left_iff]
      cases ha : f a with
      | error e => simp [bind, Except.bind]
      | ok b =>
          cases has : as.mapM f with
          | error e =>
              simp only [bind, Except.bind, reduceCtorEq, false_iff]
              rintro ⟨b', bs', -, hforall, -⟩
              rw [ih.mpr hforall] at has
              simp at has
          | ok bs' =>
              simp only [bind, Except.bind, pure, Except.pure, Except.ok.injEq]
              constructor
              · rintro rfl
                exact ⟨b, bs', rfl, ih.mp has, rfl⟩
              · rintro ⟨b', bs'', rfl, hforall, rfl⟩
                have hok := ih.mpr hforall
                rw [has] at hok
                rw [Except.ok.inj hok]

/-- The readers opened are loaded from the tables listed. -/
theorem map_of_openTables {disk : DbDisk} {readers : List SSTableReader}
    (h : openTables disk = .ok readers) :
  readers.map (fun r => (r.path, r.contents)) = sstFiles disk
  := by
  have hforall := mapM_eq_ok.mp h
  clear h
  generalize sstFiles disk = files at hforall ⊢
  induction hforall with
  | nil => rfl
  | cons hload _ ih =>
      obtain ⟨hpath, hcontents⟩ := SSTableReader.load_eq_ok hload
      rw [List.map_cons, ih, hpath, hcontents]

theorem loaded_of_openTables {disk : DbDisk} {readers : List SSTableReader}
    (h : openTables disk = .ok readers) :
  ∀ r ∈ readers, r.Loaded
  := by
  have hforall := mapM_eq_ok.mp h
  clear h
  generalize sstFiles disk = files at hforall
  induction hforall with
  | nil => simp
  | cons hload _ ih =>
      intro r hr
      rcases List.mem_cons.mp hr with rfl | hr
      · exact SSTableReader.loaded_of_load hload
      · exact ih r hr

theorem holds_of_openTables {disk : DbDisk} {readers : List SSTableReader}
    (h : openTables disk = .ok readers) :
  Holds disk readers
  := by
  intro n c
  rw [← mem_sstFiles, ← map_of_openTables h, List.mem_map]
  simp only [Prod.mk.injEq]

theorem ascending_of_openTables {disk : DbDisk} {readers : List SSTableReader}
    (h : openTables disk = .ok readers) :
  readers.Pairwise (fun a b => a.path < b.path)
  := by
  have hsorted := sorted_sstFiles disk
  rw [← map_of_openTables h, List.pairwise_map] at hsorted
  exact hsorted

/-- Tables that each load are opened. -/
theorem openTables_of_load {disk : DbDisk}
    (h : ∀ n c, disk.find? (.sst n) = some c → ∃ r, SSTableReader.load n c = .ok r) :
  ∃ readers, openTables disk = .ok readers
  := by
  have hall : ∀ file ∈ sstFiles disk, ∃ r, SSTableReader.load file.1 file.2 = .ok r := by
    rintro ⟨n, c⟩ hmem
    exact h n c (mem_sstFiles.mp hmem)
  obtain ⟨readers, hreaders⟩ := exists_forall₂_iff.mpr hall
  exact ⟨readers, mapM_eq_ok.mpr hreaders⟩

/-- Opening a directory gives the readers it holds, sorted by number. -/
theorem perm_of_openTables {disk : DbDisk} {readers gens : List SSTableReader}
    (h : openTables disk = .ok readers) (hholds : Holds disk gens)
    (hloaded : ∀ r ∈ gens, r.Loaded) (hnodup : (gens.map SSTableReader.path).Nodup) :
  readers.Perm gens
  := by
  apply (List.perm_ext_iff_of_nodup _ (List.Nodup.of_map _ hnodup)).mpr
  · -- Both lists hold the loaded readers of the tables on disk.
    have key : ∀ rs ss : List SSTableReader, Holds disk rs → Holds disk ss →
        (∀ r ∈ rs, r.Loaded) → (∀ r ∈ ss, r.Loaded) → ∀ r ∈ rs, r ∈ ss := by
      intro rs ss hrs hss hlr hls r hr
      obtain ⟨r', hr', hpath, hcontents⟩ := (hss _ _).mp (hrs.find?_path hr)
      have heq := hls r' hr'
      rw [SSTableReader.Loaded, hpath, hcontents, hlr r hr] at heq
      obtain rfl := Except.ok.inj heq
      exact hr'
    intro r
    constructor
    · exact key readers gens (holds_of_openTables h) hholds (loaded_of_openTables h) hloaded r
    · exact key gens readers hholds (holds_of_openTables h) hloaded (loaded_of_openTables h) r
  · apply (ascending_of_openTables h).imp
    rintro a b hlt rfl
    exact lt_irrefl _ hlt

/-- Readers in ascending order are what opening the directory that holds them gives. -/
theorem openTables_of_holds {disk : DbDisk} {readers : List SSTableReader}
    (h : Holds disk readers) (hloaded : ∀ r ∈ readers, r.Loaded)
    (hascending : readers.Pairwise (fun a b => a.path < b.path)) :
  openTables disk = .ok readers
  := by
  have hload : ∀ n c, disk.find? (.sst n) = some c → ∃ r, SSTableReader.load n c = .ok r := by
    intro n c hfind
    obtain ⟨r, hr, rfl, rfl⟩ := (h n c).mp hfind
    exact ⟨r, hloaded r hr⟩
  obtain ⟨opened, hopened⟩ := openTables_of_load hload
  have hnodup : (readers.map SSTableReader.path).Nodup := by
    rw [List.Nodup, List.pairwise_map]
    exact hascending.imp (fun hlt => hlt.ne)
  have hperm := perm_of_openTables hopened h hloaded hnodup
  have heq : opened = readers := by
    apply hperm.eq_of_pairwise _ (ascending_of_openTables hopened) hascending
    intro a b _ _ hab hba
    exact absurd hab (lt_asymm hba)
  rw [hopened, heq]

/-- The counter starts above the numbers of all tables. -/
theorem lt_nextNumber {readers : List SSTableReader}
    (h : readers.Pairwise (fun a b => a.path < b.path)) {r : SSTableReader} (hr : r ∈ readers) :
  r.path < nextNumber readers
  := by
  induction readers using List.reverseRecOn with
  | nil => simp at hr
  | append_singleton readers last _ =>
      rw [nextNumber, List.getLast?_concat]
      simp only
      rcases List.mem_append.mp hr with hr | hr
      · have hlt := (List.pairwise_append.mp h).2.2 r hr last (by simp)
        omega
      · obtain rfl := List.mem_singleton.mp hr
        omega

end TinyLsm
