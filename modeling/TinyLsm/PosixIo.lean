import TinyLsm.Linearizability

/-!
# System calls and their answers

The loops of `posix_io.h`, and the functions that write the log and the tables with them, one system call
at a time.  The kernel answers each call with a count, which may be anything up to what was asked for, or
with -1 and an `errno`, of which `WriteAll` only retries on `EINTR`.  Whatever the answers are, what
`Append` and `WriteSSTable` do is a run of the writer or of the compaction thread (`append_refines`,
`writeSSTable_refines`), and `ReadAll` returns the file or throws (`readFile_eq`).

A call that fails has no effect here.  `close` is left out: it changes no file, and its result is
ignored.
-/

namespace TinyLsm.Posix

open FileSystem Transition

/-- What a system call returns. -/
inductive Answer where
  | count (n : ℕ)
  /-- -1 with `EINTR`. -/
  | interrupted
  /-- -1 with another `errno`. -/
  | failed
deriving DecidableEq, Repr

/-- How far a function has come with the answers it got. -/
inductive Ending where
  | returned
  | threw
  /-- It waits for the answer to its next call. -/
  | blocked
deriving DecidableEq, Repr

/-- What a function has done: the calls that took effect, and the answers it has not used. -/
structure IoRun where
  calls : List DbSyscall
  ending : Ending
  unused : List Answer

namespace IoRun

/-- What comes after, once the function has returned. -/
def andThen (r : IoRun) (next : List Answer → IoRun) : IoRun :=
  match r.ending with
  | .returned => { next r.unused with calls := r.calls ++ (next r.unused).calls }
  | _ => r

/-- The files after the calls. -/
def files (r : IoRun) (disk : DbDisk) : DbDisk :=
  r.calls.foldl (fun disk c => c.exec disk) disk

/-- One call, whose failure is thrown. -/
def once (c : DbSyscall) : List Answer → IoRun
  | [] => ⟨[], .blocked, []⟩
  | .count _ :: answers => ⟨[c], .returned, answers⟩
  | _ :: answers => ⟨[], .threw, answers⟩

theorem files_andThen (r : IoRun) (next : List Answer → IoRun) (disk : DbDisk) :
  (r.andThen next).files disk
    = if r.ending = .returned then (next r.unused).files (r.files disk) else r.files disk
  := by
  rw [andThen]
  split
  · rename_i hending
    rw [if_pos hending, files, files, List.foldl_append]
    rfl
  · rename_i hending
    rw [if_neg hending]

end IoRun

/-! ### The functions -/

/-- `WriteAll`: the loop on the answers to its calls of `write`. -/
def writeAll (file : FileName) (data : Bytes) (written : ℕ) : List Answer → IoRun
  | [] =>
      if written < data.length then ⟨[], .blocked, []⟩
      else ⟨[], .returned, []⟩
  | a :: answers =>
      if written < data.length then
        match a with
        | .count n =>
            let r := writeAll file data (written + n) answers
            { r with calls := .append file ((data.drop written).take n) :: r.calls }
        | .interrupted => writeAll file data written answers
        | .failed => ⟨[], .threw, answers⟩
      else ⟨[], .returned, a :: answers⟩

/-- `WriteAheadLog::Append`. -/
def append (op : Op) (answers : List Answer) : IoRun :=
  (writeAll .walLog op.encode 0 answers).andThen (IoRun.once (.fsync .walLog))

/-- The system calls of `WriteSSTable`. -/
def writeSSTableCalls (number : ℕ) (entries : EntryMap) (answers : List Answer) : IoRun :=
  let l := layout entries.entries
  let indexBytes := l.sparseIndex.flatMap encodeIndexEntry
  let footer := encodeFooter l.data.length indexBytes.length entries.entries.length
  (((((IoRun.once (.createTrunc (.tmp number)) answers).andThen
    (writeAll (.tmp number) l.data 0)).andThen
    (writeAll (.tmp number) indexBytes 0)).andThen
    (writeAll (.tmp number) footer 0)).andThen
    (IoRun.once (.fsync (.tmp number)))).andThen
    (IoRun.once (.rename (.tmp number) (.sst number)))

/-- `ReadAll`: the loop on the answers to its calls of `read`, and the string it has then.  It does not
retry on `EINTR`. -/
def readAll (contents : Bytes) (position : ℕ) : List Answer → Bytes × Ending
  | [] => ([], .blocked)
  | .count 0 :: _ => ([], .returned)
  | .count (n + 1) :: answers =>
      let r := readAll contents (position + (n + 1)) answers
      ((contents.drop position).take (n + 1) ++ r.1, r.2)
  | .interrupted :: _ => ([], .threw)
  | .failed :: _ => ([], .threw)

/-- A file is opened and read, as the constructor of `SSTableReader` and `Replay` do it; there is no
result yet while a call waits for its answer. -/
def readFile (disk : DbDisk) (file : FileName) : List Answer → Option (Except StorageError Bytes)
  | [] => none
  | .count _ :: answers =>
      match disk.find? file with
      | none => some (.error .io)
      | some contents =>
          match (readAll contents 0 answers).2 with
          | .returned => some (.ok (readAll contents 0 answers).1)
          | .threw => some (.error .io)
          | .blocked => none
  | _ :: _ => some (.error .io)

/-! ### Reading -/

/-- The answers `read` can give from a position of a file on: up to the buffer and up to what is left,
and 0 only at the end. -/
def ReadsFrom (contents : Bytes) (position : ℕ) : List Answer → Prop
  | [] => True
  | .count n :: answers =>
      n ≤ 4096 ∧ position + n ≤ contents.length ∧ (n = 0 → position = contents.length)
        ∧ ReadsFrom contents (position + n) answers
  | _ :: answers => ReadsFrom contents position answers

/-- What the loop has read when it returns, when it throws, and how long it can wait. -/
theorem readAll_spec {contents : Bytes} {answers : List Answer} {position : ℕ}
    (h : ReadsFrom contents position answers) :
  ((readAll contents position answers).2 = .returned →
      (readAll contents position answers).1 = contents.drop position)
    ∧ ((readAll contents position answers).2 = .threw → ∃ a ∈ answers, ∀ n, a ≠ .count n)
    ∧ ((readAll contents position answers).2 = .blocked →
      position + answers.length ≤ contents.length ∨ answers = [])
  := by
  induction answers generalizing position with
  | nil => simp [readAll]
  | cons a answers ih =>
      cases a with
      | count n =>
          obtain ⟨-, hle, hend, hrest⟩ := h
          cases n with
          | zero =>
              rw [readAll, hend rfl, List.drop_length]
              simp
          | succ n =>
              obtain ⟨hreturned, hthrew, hblocked⟩ := ih hrest
              rw [readAll]
              refine ⟨?_, ?_, ?_⟩
              · intro hending
                rw [hreturned hending, ← List.drop_drop, List.take_append_drop]
              · intro hending
                obtain ⟨a, ha, hne⟩ := hthrew hending
                exact ⟨a, List.mem_cons_of_mem _ ha, hne⟩
              · intro hending
                left
                rcases hblocked hending with hlong | rfl
                · rw [List.length_cons]
                  omega
                · simpa using by omega
      | interrupted =>
          rw [readAll]
          exact ⟨by simp, fun _ => ⟨_, List.mem_cons_self, by simp⟩, by simp⟩
      | failed =>
          rw [readAll]
          exact ⟨by simp, fun _ => ⟨_, List.mem_cons_self, by simp⟩, by simp⟩

/-- A file that is there is read whole, unless a `read` fails; and there is an end to the reading. -/
theorem readFile_eq {disk : DbDisk} {file : FileName} {contents : Bytes}
    (hfind : disk.find? file = some contents) {answers : List Answer}
    (h : ReadsFrom contents 0 answers) (fd : ℕ) :
  readFile disk file (.count fd :: answers) = some (.ok contents)
    ∨ (readFile disk file (.count fd :: answers) = some (.error .io)
      ∧ ∃ a ∈ answers, ∀ n, a ≠ .count n)
    ∨ (readFile disk file (.count fd :: answers) = none ∧ answers.length ≤ contents.length)
  := by
  obtain ⟨hreturned, hthrew, hblocked⟩ := readAll_spec h
  simp only [readFile, hfind]
  cases hending : (readAll contents 0 answers).2 with
  | returned =>
      left
      rw [hreturned hending, List.drop_zero]
  | threw => exact Or.inr (Or.inl ⟨rfl, hthrew hending⟩)
  | blocked =>
      right; right
      refine ⟨rfl, ?_⟩
      rcases hblocked hending with hlong | rfl
      · rwa [Nat.zero_add] at hlong
      · exact Nat.zero_le _

theorem readFile_eq_chunks :
  readFile (OrderedMap.empty.insert .walLog [1, 2, 3]) .walLog
      [.count 3, .count 2, .count 1, .count 0] = some (.ok [1, 2, 3])
  := by
  have hfind : (OrderedMap.empty.insert .walLog [1, 2, 3] : DbDisk).find? .walLog
      = some [1, 2, 3] := by
    simp
  have hreads : ReadsFrom [1, 2, 3] 0 [.count 2, .count 1, .count 0] := by
    simp [ReadsFrom]
  rcases readFile_eq hfind hreads 3 with hread | ⟨-, a, ha, hne⟩ | ⟨hread, -⟩
  · exact hread
  · simp only [List.mem_cons, List.not_mem_nil, or_false] at ha
    rcases ha with rfl | rfl | rfl
    · exact absurd rfl (hne 2)
    · exact absurd rfl (hne 1)
    · exact absurd rfl (hne 0)
  · simp [readFile, hfind, readAll] at hread

/-! ### Writing -/

theorem exec_append_nil (disk : DbDisk) (file : FileName) :
  (Syscall.append file []).exec disk = disk
  := by
  apply OrderedMap.ext_find?
  intro name
  simp [Syscall.exec]

/-- What is left to be written is all that the loop depends on. -/
theorem writeAll_drop (file : FileName) (data : Bytes) (written : ℕ) (answers : List Answer) :
  writeAll file data written answers = writeAll file (data.drop written) 0 answers
  := by
  have hlt : ∀ (data : Bytes) (written : ℕ),
      0 < (data.drop written).length ↔ written < data.length := by
    intro data written
    rw [List.length_drop]
    omega
  induction answers generalizing data written with
  | nil => simp only [writeAll, hlt]
  | cons a answers ih =>
      cases a with
      | count n =>
          have hnext : writeAll file (data.drop written) (0 + n) answers
              = writeAll file data (written + n) answers := by
            rw [ih (data.drop written), ih data, List.drop_drop, Nat.zero_add]
          simp only [writeAll, hlt, hnext, List.drop_zero]
      | interrupted => simp only [writeAll, hlt, ih data written]
      | failed => simp only [writeAll, hlt]

/-- Where a machine can write any part of what is left, it can do what the loop does. -/
theorem writeAll_reaches (allowed : Action → Prop) {file : FileName} {S : Bytes → DbDisk → State}
    (hS : ∀ (rest : Bytes) (disk : DbDisk) (k : ℕ), 0 < k → k ≤ rest.length → ∃ a, allowed a
      ∧ step (S rest disk) a = some (S (rest.drop k) ((Syscall.append file (rest.take k)).exec disk)))
    (answers : List Answer) (rest : Bytes) (disk : DbDisk) :
  ∃ rest', Reaches step (fun _ a _ => allowed a) (S rest disk)
      (S rest' ((writeAll file rest 0 answers).files disk))
    ∧ ((writeAll file rest 0 answers).ending = .returned ↔ rest' = [])
  := by
  induction answers generalizing rest disk with
  | nil =>
      refine ⟨rest, ?_⟩
      rw [writeAll]
      split_ifs with hlt
      · exact ⟨.refl, by simpa [List.length_pos_iff] using hlt⟩
      · exact ⟨.refl, by simpa [List.length_pos_iff] using hlt⟩
  | cons a answers ih =>
      by_cases hlt : 0 < rest.length
      · have hne : rest ≠ [] := List.length_pos_iff.mp hlt
        cases a with
        | count n =>
            rw [writeAll, if_pos hlt, List.drop_zero, writeAll_drop, Nat.zero_add]
            obtain ⟨rest', hreach, hending⟩ := ih (rest.drop n)
              ((Syscall.append file (rest.take n)).exec disk)
            refine ⟨rest', ?_, hending⟩
            by_cases hn : n = 0
            · -- Nothing was written, and the loop goes on.
              subst hn
              rw [List.take_zero, exec_append_nil, List.drop_zero] at hreach
              change Reaches step _ _ (S rest' ((writeAll file (rest.drop 0) 0 answers).files
                ((Syscall.append file (rest.take 0)).exec disk)))
              rw [List.take_zero, exec_append_nil, List.drop_zero]
              exact hreach
            · obtain ⟨a, ha, hstep⟩ := hS rest disk (min n rest.length) (by omega) (min_le_right _ _)
              rw [← List.take_eq_take_min, ← List.drop_eq_drop_min] at hstep
              exact .head a hstep ha hreach
        | interrupted =>
            rw [writeAll, if_pos hlt]
            exact ih rest disk
        | failed =>
            rw [writeAll, if_pos hlt]
            exact ⟨rest, .refl, by simpa using hne⟩
      · have hnil : rest = [] := by simpa [List.length_pos_iff] using hlt
        refine ⟨rest, ?_⟩
        cases a with
        | _ =>
            rw [writeAll, if_neg hlt]
            exact ⟨.refl, by simp [hnil]⟩

/-! ### The log -/

/-- Where `Append` leaves its caller. -/
def AppendEnds (p : Process) (op : Op) (calls : List Call) (t : State) : Ending → Prop
  | .returned => t.status = .running { p with writer := .applying op } ∧ t.calls = calls
  | .threw =>
      t.status = .running { p with writer := .idle } ∧ t.calls = calls ++ [⟨op, .threw false⟩]
  | .blocked =>
      ∃ rest, t.status = .running { p with writer := .appending op rest } ∧ t.calls = calls

theorem step_append {p : Process} {op : Op} {calls : List Call} (rest : Bytes) (disk : DbDisk) {k : ℕ}
    (hpos : 0 < k) (hle : k ≤ rest.length) :
  step ⟨disk, .running { p with writer := .appending op rest }, calls⟩ (.writer k)
    = some ⟨(Syscall.append .walLog (rest.take k)).exec disk,
        .running { p with writer := .appending op (rest.drop k) }, calls⟩
  := by
  cases rest with
  | nil => simp at hle; omega
  | cons b bs =>
      have hcount : 0 < k ∧ k ≤ (b :: bs).length := ⟨hpos, hle⟩
      simp only [step, Status.move, Process.writerMove, if_pos hcount, Option.map_some, State.after,
        Move.files, Syscall.execOption_some, List.append_nil]

/-- Whatever the kernel answers, `Append` does what the writer does: the record is written in some parts
and synced, or the call throws after a part of it. -/
theorem append_refines {s : State} {p : Process} {op : Op} (hp : s.status = .running p)
    (hw : p.writer = .appending op op.encode) (answers : List Answer) :
  ∃ t, Reaches step (fun _ a _ => a.writes) s t ∧ t.disk = (append op answers).files s.disk
    ∧ AppendEnds p op s.calls t (append op answers).ending
  := by
  obtain ⟨disk, status, calls⟩ := s
  obtain ⟨db, writer, compactor⟩ := p
  simp only at hp hw
  subst hp hw
  obtain ⟨rest', hreach, hending⟩ := writeAll_reaches (fun a => a.writes)
    (S := fun rest disk => ⟨disk, .running ⟨db, .appending op rest, compactor⟩, calls⟩)
    (fun rest disk k hpos hle =>
      ⟨.writer k, rfl, step_append (p := ⟨db, .idle, compactor⟩) rest disk hpos hle⟩)
    answers op.encode disk
  rw [append, IoRun.files_andThen]
  generalize writeAll .walLog op.encode 0 answers = r at hreach hending
  obtain ⟨calls', ending, unused⟩ := r
  cases ending with
  | returned =>
      obtain rfl := hending.mp rfl
      cases unused with
      | nil => exact ⟨_, hreach, rfl, [], rfl, rfl⟩
      | cons a unused =>
          cases a with
          | count n => exact ⟨_, .tail (.writer 0) hreach rfl rfl, rfl, rfl, List.append_nil _⟩
          | _ => exact ⟨_, .tail (.writerFail false) hreach rfl rfl, rfl, rfl, rfl⟩
  | threw =>
      cases rest' with
      | nil => cases hending.mpr rfl
      | cons b bs => exact ⟨_, .tail (.writerFail false) hreach rfl rfl, rfl, rfl, rfl⟩
  | blocked => exact ⟨_, hreach, rfl, rest', rfl, rfl⟩

/-- A call has begun. -/
def begunRun (op : Op) : List Action :=
  launchActions 0 2 ++ [.call op]

/-- The writer is about to append the record of the operation. -/
def beginsAppend (op : Op) (p : Process) : Bool :=
  match p.writer with
  | .appending op' rest => decide (op' = op ∧ rest = op.encode)
  | _ => false

theorem writer_of_beginsAppend {op : Op} {p : Process} (h : beginsAppend op p = true) :
  p.writer = .appending op op.encode
  := by
  rw [beginsAppend] at h
  cases hw : p.writer with
  | appending op' rest =>
      simp only [hw] at h
      obtain ⟨rfl, rfl⟩ := of_decide_eq_true h
      rfl
  | _ => simp [hw] at h

theorem append_refines_interrupted :
  ∃ s p t, run step State.init (begunRun (.put [97] [1])) = some s
    ∧ s.status = .running p ∧ Reaches step (fun _ a _ => a.writes) s t
    ∧ t.status = .running { p with writer := .applying (.put [97] [1]) }
    ∧ t.disk = (append (.put [97] [1])
      [.count 3, .interrupted, .count 0, .count 12, .count 0]).files s.disk
  := by
  have hrun : (run step State.init (begunRun (.put [97] [1]))).any
      (fun s => s.runs (beginsAppend (.put [97] [1]))) = true := by
    decide +kernel
  have hreturned : (append (.put [97] [1])
      [.count 3, .interrupted, .count 0, .count 12, .count 0]).ending = .returned := by
    decide +kernel
  obtain ⟨s, hs, hruns⟩ := exists_of_run hrun
  obtain ⟨p, hp, hbegins⟩ := State.runs_iff.mp hruns
  obtain ⟨t, hreach, hdisk, hends⟩ := append_refines hp (writer_of_beginsAppend hbegins)
    [.count 3, .interrupted, .count 0, .count 12, .count 0]
  rw [hreturned] at hends
  exact ⟨s, p, t, hs, hp, hreach, hends.1, hdisk⟩

/-! ### The tables -/

/-- A thread in `WriteSSTable`: its states in the call, after the call, and with an exception. -/
structure TableWriter (number : ℕ) (allowed : Action → Prop) (S : FileWrite → DbDisk → State)
    (T F : DbDisk → State) : Prop where
  move : ∀ {file file' : FileWrite} {c : DbSyscall} (count : ℕ) (disk : DbDisk),
    file.move number count = some (c, some file') →
    ∃ a, allowed a ∧ step (S file disk) a = some (S file' (c.exec disk))
  rename : ∀ disk : DbDisk, ∃ a, allowed a
    ∧ step (S .synced disk) a = some (T ((Syscall.rename (.tmp number) (.sst number)).exec disk))
  fail : ∀ (file : FileWrite) (disk : DbDisk), ∃ a, allowed a ∧ step (S file disk) a = some (F disk)

/-- Where a part of `WriteSSTable` leaves the thread, `next` being what follows that part. -/
def WriteEnds (S : FileWrite → DbDisk → State) (next F : DbDisk → State) (disk : DbDisk) (t : State) :
    Ending → Prop
  | .returned => t = next disk
  | .threw => t = F disk
  | .blocked => ∃ file, t = S file disk

/-- The thread can do what a part of `WriteSSTable` does. -/
def Follows (allowed : Action → Prop) (S : FileWrite → DbDisk → State) (next F : DbDisk → State)
    (r : IoRun) (file : FileWrite) (disk : DbDisk) : Prop :=
  ∃ t, Reaches step (fun _ a _ => allowed a) (S file disk) t
    ∧ WriteEnds S next F (r.files disk) t r.ending

namespace TableWriter

variable {number : ℕ} {allowed : Action → Prop} {S : FileWrite → DbDisk → State}
  {next T F : DbDisk → State}

theorem andThen {r : IoRun} {f : List Answer → IoRun} {file : FileWrite} {disk : DbDisk}
    (file' : FileWrite)
    (hr : Follows allowed S (S file') F r file disk)
    (hf : ∀ disk, Follows allowed S next F (f r.unused) file' disk) :
  Follows allowed S next F (r.andThen f) file disk
  := by
  obtain ⟨t, hreach, hends⟩ := hr
  rw [Follows, IoRun.files_andThen]
  obtain ⟨calls, ending, unused⟩ := r
  cases ending with
  | returned =>
      obtain rfl : t = _ := hends
      obtain ⟨u, hreach', hends'⟩ := hf (IoRun.files ⟨calls, .returned, unused⟩ disk)
      exact ⟨u, hreach.trans hreach', hends'⟩
  | threw => exact ⟨t, hreach, hends⟩
  | blocked => exact ⟨t, hreach, hends⟩

theorem once (h : TableWriter number allowed S T F) {c : DbSyscall} {file : FileWrite} {disk : DbDisk}
    (hstep : ∃ a, allowed a ∧ step (S file disk) a = some (next (c.exec disk)))
    (answers : List Answer) :
  Follows allowed S next F (IoRun.once c answers) file disk
  := by
  cases answers with
  | nil => exact ⟨_, .refl, file, rfl⟩
  | cons a answers =>
      cases a with
      | count n =>
          obtain ⟨a, ha, hstep⟩ := hstep
          exact ⟨_, .tail a .refl hstep ha, rfl⟩
      | _ =>
          obtain ⟨a, ha, hstep⟩ := h.fail file disk
          exact ⟨_, .tail a .refl hstep ha, rfl⟩

/-- A section of the file, with other sections after it. -/
theorem writeAll (h : TableWriter number allowed S T F) (data later : Bytes) (disk : DbDisk)
    (answers : List Answer) :
  Follows allowed S (S (.writing later)) F (Posix.writeAll (.tmp number) data 0 answers)
    (.writing (data ++ later)) disk
  := by
  have hchunk : ∀ (rest : Bytes) (disk : DbDisk) (k : ℕ), 0 < k → k ≤ rest.length → ∃ a, allowed a
      ∧ step (S (.writing (rest ++ later)) disk) a = some (S (.writing (rest.drop k ++ later))
        ((Syscall.append (.tmp number) (rest.take k)).exec disk)) := by
    intro rest disk k hpos hle
    apply h.move k disk
    cases rest with
    | nil =>
        rw [List.length_nil] at hle
        omega
    | cons b bs =>
        have hcount : 0 < k ∧ k ≤ (b :: (bs ++ later)).length := by
          simp only [List.length_cons, List.length_append] at hle ⊢
          omega
        rw [List.cons_append, FileWrite.move, if_pos hcount, ← List.cons_append,
          List.take_append_of_le_length hle, List.drop_append_of_le_length hle]
  obtain ⟨rest', hreach, hending⟩ := writeAll_reaches allowed
    (S := fun rest disk => S (.writing (rest ++ later)) disk) hchunk answers data disk
  rw [Follows]
  generalize Posix.writeAll (.tmp number) data 0 answers = r at hreach hending ⊢
  obtain ⟨calls, ending, unused⟩ := r
  cases ending with
  | returned =>
      obtain rfl := hending.mp rfl
      exact ⟨_, hreach, rfl⟩
  | threw =>
      obtain ⟨a, ha, hstep⟩ := h.fail (.writing (rest' ++ later)) _
      exact ⟨_, .tail a hreach hstep ha, rfl⟩
  | blocked => exact ⟨_, hreach, _, rfl⟩

/-- Whatever the kernel answers, `WriteSSTable` does what the thread does. -/
theorem writeSSTable (h : TableWriter number allowed S T F) {entries : EntryMap} {contents : Bytes}
    (hfits : TinyLsm.writeSSTable entries = .ok contents) (disk : DbDisk) (answers : List Answer) :
  Follows allowed S T F (writeSSTableCalls number entries answers) (.creating entries) disk
  := by
  have hcontents : contents = sstableFile entries := by
    rw [TinyLsm.writeSSTable] at hfits
    split_ifs at hfits
    exact (Except.ok.inj hfits).symm
  rw [sstableFile] at hcontents
  have hcreate : FileWrite.move (.creating entries) number 0
      = some (.createTrunc (.tmp number), some (.writing contents)) := by
    rw [FileWrite.move, hfits]
  rw [writeSSTableCalls]
  generalize (layout entries.entries).sparseIndex.flatMap encodeIndexEntry = index at hcontents ⊢
  generalize encodeFooter (layout entries.entries).data.length index.length entries.entries.length
    = footer at hcontents ⊢
  apply andThen .synced
  · apply andThen (.writing [])
    · apply andThen (.writing footer)
      · apply andThen (.writing (index ++ footer))
        · apply andThen (.writing contents)
          · exact h.once (h.move 0 disk hcreate) answers
          · intro disk
            rw [hcontents, List.append_assoc]
            exact h.writeAll _ _ disk _
        · exact fun disk => h.writeAll _ _ disk _
      · intro disk
        have hlast := h.writeAll footer [] disk
        rw [List.append_nil] at hlast
        exact hlast _
    · exact fun disk => h.once (h.move 0 disk rfl) _
  · exact fun disk => h.once (h.rename disk) _

end TableWriter

/-- The writer in `WriteSSTable`. -/
def flushing (s : State) (p : Process) (op : Op) (file : FileWrite) (disk : DbDisk) : State :=
  ⟨disk, .running { p with writer := .flushing op file }, s.calls⟩

/-- After it, the writer opens the table. -/
def flushed (s : State) (p : Process) (op : Op) (disk : DbDisk) : State :=
  ⟨disk, (p.tableWritten op disk).1, s.calls ++ (p.tableWritten op disk).2⟩

/-- An exception ends the call. -/
def flushThrew (s : State) (p : Process) (op : Op) (disk : DbDisk) : State :=
  ⟨disk, .running { p with writer := .idle }, s.calls ++ [⟨op, .threw true⟩]⟩

/-- The compaction thread in `WriteSSTable`. -/
def compacting (s : State) (p : Process) (toCompact : List SSTableReader) (merged : EntryMap)
    (number : ℕ) (file : FileWrite) (disk : DbDisk) : State :=
  ⟨disk, .running { p with compactor := .writing toCompact merged number file }, s.calls⟩

def compacted (s : State) (p : Process) (toCompact : List SSTableReader) (number : ℕ)
    (disk : DbDisk) : State :=
  ⟨disk, (p.compactedWritten toCompact number disk).1,
    s.calls ++ (p.compactedWritten toCompact number disk).2⟩

/-- An exception ends the process. -/
def compactionThrew (s : State) (p : Process) (disk : DbDisk) : State :=
  ⟨disk, .down, s.calls ++ p.interrupted⟩

theorem tableWriter_flush (s : State) (p : Process) (op : Op) :
  TableWriter p.db.nextSstableNumber (fun a => a.writes) (flushing s p op) (flushed s p op)
    (flushThrew s p op)
  where
    move := by
      intro file file' c count disk hmove
      refine ⟨.writer count, rfl, ?_⟩
      simp only [step, flushing, Status.move, Process.writerMove, hmove, Option.map_some,
        State.after, Move.files, Syscall.execOption_some, List.append_nil]
    rename := by
      intro disk
      refine ⟨.writer 0, rfl, ?_⟩
      simp only [step, flushing, flushed, Status.move, Process.writerMove, FileWrite.move,
        Option.map_some, State.after, Move.files, Syscall.execOption_some, Process.tableWritten,
        Process.threw]
    fail := fun file disk => ⟨.writerFail false, rfl, rfl⟩

theorem tableWriter_compaction (s : State) (p : Process) (toCompact : List SSTableReader)
    (merged : EntryMap) (number : ℕ) :
  TableWriter number (fun a => a.compacts) (compacting s p toCompact merged number)
    (compacted s p toCompact number) (compactionThrew s p)
  where
    move := by
      intro file file' c count disk hmove
      refine ⟨.compactor count, rfl, ?_⟩
      simp only [step, compacting, Status.move, Process.compactorMove, hmove, Option.map_some,
        State.after, Move.files, Syscall.execOption_some, List.append_nil]
    rename := by
      intro disk
      refine ⟨.compactor 0, rfl, ?_⟩
      simp only [step, compacting, compacted, Status.move, Process.compactorMove, FileWrite.move,
        Option.map_some, State.after, Move.files, Syscall.execOption_some,
        Process.compactedWritten, Process.terminated, Process.interrupted]
    fail := fun file disk => ⟨.compactorFail false, rfl, rfl⟩

/-- Whatever the kernel answers, `WriteSSTable` does what the writer does in a flush, and what the
compaction thread does in a compaction, as long as the table fits in a file. -/
theorem writeSSTable_refines {s : State} {p : Process} (hp : s.status = .running p)
    (answers : List Answer) :
  (∀ op contents, p.writer = .flushing op (.creating p.db.memtable.entries) →
      writeSSTable p.db.memtable.entries = .ok contents →
      ∃ t, Reaches step (fun _ a _ => a.writes) s t
        ∧ WriteEnds (flushing s p op) (flushed s p op) (flushThrew s p op)
          ((writeSSTableCalls p.db.nextSstableNumber p.db.memtable.entries answers).files s.disk) t
          (writeSSTableCalls p.db.nextSstableNumber p.db.memtable.entries answers).ending)
    ∧ ∀ toCompact merged number contents,
      p.compactor = .writing toCompact merged number (.creating merged) →
      writeSSTable merged = .ok contents →
      ∃ t, Reaches step (fun _ a _ => a.compacts) s t
        ∧ WriteEnds (compacting s p toCompact merged number) (compacted s p toCompact number)
          (compactionThrew s p) ((writeSSTableCalls number merged answers).files s.disk) t
          (writeSSTableCalls number merged answers).ending
  := by
  constructor
  · intro op contents hw hfits
    have hstart : s = flushing s p op (.creating p.db.memtable.entries) s.disk := by
      rw [flushing, ← hw, ← hp]
    obtain ⟨t, hreach, hends⟩ := (tableWriter_flush s p op).writeSSTable hfits s.disk answers
    rw [← hstart] at hreach
    exact ⟨t, hreach, hends⟩
  · intro toCompact merged number contents hc hfits
    have hstart : s = compacting s p toCompact merged number (.creating merged) s.disk := by
      rw [compacting, ← hc, ← hp]
    obtain ⟨t, hreach, hends⟩ :=
      (tableWriter_compaction s p toCompact merged number).writeSSTable hfits s.disk answers
    rw [← hstart] at hreach
    exact ⟨t, hreach, hends⟩

/-- The footer of a table is not written. -/
def footerFails : List Answer :=
  [.count 3, .count 10, .interrupted, .count 5, .count 13, .count 0, .failed]

/-- The writer is about to write the MemTable, which fits in a file, and the calls throw. -/
def beginsTable (op : Op) (answers : List Answer) (p : Process) : Bool :=
  match p.writer with
  | .flushing op' (.creating entries) =>
      decide (op' = op ∧ entries.entries = p.db.memtable.entries.entries
        ∧ writeSSTable entries = .ok (sstableFile entries)
        ∧ (writeSSTableCalls p.db.nextSstableNumber entries answers).ending = .threw)
  | _ => false

theorem writer_of_beginsTable {op : Op} {answers : List Answer} {p : Process}
    (h : beginsTable op answers p = true) :
  p.writer = .flushing op (.creating p.db.memtable.entries)
    ∧ writeSSTable p.db.memtable.entries = .ok (sstableFile p.db.memtable.entries)
    ∧ (writeSSTableCalls p.db.nextSstableNumber p.db.memtable.entries answers).ending = .threw
  := by
  rw [beginsTable] at h
  cases hw : p.writer with
  | flushing op' file =>
      cases file with
      | creating entries =>
          simp only [hw] at h
          obtain ⟨rfl, hentries, hfits, hthrew⟩ := of_decide_eq_true h
          obtain rfl := OrderedMap.ext hentries
          exact ⟨rfl, hfits, hthrew⟩
      | _ => simp [hw] at h
  | _ => simp [hw] at h

theorem writeSSTable_refines_footerFails :
  ∃ s p t, run step State.init (begunRun (.put [97] [1]) ++ [.writer 15, .writer 0, .writer 0])
      = some s
    ∧ s.status = .running p ∧ Reaches step (fun _ a _ => a.writes) s t
    ∧ t = flushThrew s p (.put [97] [1])
      ((writeSSTableCalls p.db.nextSstableNumber p.db.memtable.entries footerFails).files s.disk)
  := by
  have hrun : (run step State.init (begunRun (.put [97] [1])
      ++ [.writer 15, .writer 0, .writer 0])).any
      (fun s => s.runs (beginsTable (.put [97] [1]) footerFails)) = true := by
    decide +kernel
  obtain ⟨s, hs, hruns⟩ := exists_of_run hrun
  obtain ⟨p, hp, hbegins⟩ := State.runs_iff.mp hruns
  obtain ⟨hw, hfits, hthrew⟩ := writer_of_beginsTable hbegins
  obtain ⟨t, hreach, hends⟩ := (writeSSTable_refines hp footerFails).1 _ _ hw hfits
  rw [hthrew] at hends
  exact ⟨s, p, t, hs, hp, hreach, hends⟩

end TinyLsm.Posix
