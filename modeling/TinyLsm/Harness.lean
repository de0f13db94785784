import TinyLsm.SettledKeys
import TinyLsm.Linearizability
import TinyLsm.Text
import TinyLsm.Library.Lines

/-!
# The crash-recovery harness

A trial of `tools/crash_recovery_harness.cpp`: a child process puts numbered keys and acknowledges each
over a pipe when its `put` has returned, while its compaction thread runs; the parent reads the
acknowledgements in whatever pieces they arrive, kills the child at any moment, opens the directory
again and looks up every key up to the last one acknowledged.  In no interleaving does a trial report a
lost write, and it never fails to open the directory (`runTrial_true`).
-/

namespace TinyLsm

open FileSystem Transition

/-- `kDefaultFlushThresholdBytes`. -/
def Database.kDefaultFlushThresholdBytes : UInt64 := 4 * 1024 * 1024

/-- `kDefaultCompactionTriggerCount`. -/
def Database.kDefaultCompactionTriggerCount : ℕ := 4

namespace Harness

/-- `Key`. -/
def key (i : ℕ) : Bytes :=
  ['k', 'e', 'y', '-'].map Char.toUInt8 ++ (Numeral.numeral 10 6 i).map digitChar

/-- `Value`. -/
def value (i : ℕ) : Bytes :=
  ['v', 'a', 'l', 'u', 'e', '-', 'f', 'o', 'r', '-'].map Char.toUInt8 ++ toText i

/-- The write of one round of the loop of `RunChild`. -/
def write (i : ℕ) : Op :=
  .put (key i) (value i)

/-- The acknowledgement of that round. -/
def message (i : ℕ) : Bytes :=
  toText i ++ [newline]

/-- The inner loop of `CollectAcks`, which takes one line after the other out of the buffer; none when
`std::stoi` throws.  A round shortens the buffer, so there are no more rounds than it has bytes. -/
def drain : ℕ → ℤ → Bytes → Option (ℤ × Bytes)
  | 0, lastAcked, buf => some (lastAcked, buf)
  | rounds + 1, lastAcked, buf =>
      match Lines.nextLine newline buf with
      | none => some (lastAcked, buf)
      | some (line, rest) =>
          match stoi line with
          | none => none
          | some i => drain rounds i rest

/-- Where the child stands. -/
inductive Child where
  | opening
  /-- Before the test of the loop. -/
  | looping (i : ℕ)
  | putting (i : ℕ)
  /-- The `put` has returned; before the `write` to the pipe. -/
  | acking (i : ℕ)
  | exited

/-- Where `RunTrial` stands in the parent. -/
inductive Parent where
  /-- In `CollectAcks`. -/
  | collecting (lastAcked : ℤ) (buf : Bytes)
  | killing (lastAcked : ℤ)
  | reopening (lastAcked : ℤ)
  /-- In the loop that looks up the keys. -/
  | checking (lastAcked : ℤ) (i : ℕ) (ok : Bool)
  | finished (ok : Bool)
  /-- An exception has left the harness. -/
  | aborted

/-- The two processes, the directory and the pipe. -/
structure Trial where
  state : State
  child : Child
  pipe : Bytes
  parent : Parent

/-- The directory is empty and the child is forked. -/
def Trial.init : Trial :=
  ⟨State.init, .opening, [], .collecting (-1) []⟩

inductive TrialAction where
  /-- The child moves; `choice` resolves what is left open by its database. -/
  | child (choice : ℕ)
  /-- The child writes to the pipe, which may fail. -/
  | ack (written : Bool)
  /-- The compaction thread of the process that runs. -/
  | compactor (count : ℕ)
  /-- The parent reads so many bytes of the pipe. -/
  | read (count : ℕ)
  /-- The deadline has passed, or a read has failed or found the pipe closed. -/
  | stop
  | kill
  | reopen (choice : ℕ)
  | check

namespace Trial

/-- A move of the child, in `RunChild`. -/
def runChild (records : ℕ) (t : Trial) (choice : ℕ) : Option Trial :=
  match t.child with
  | .opening =>
      match t.state.status with
      | .down => (TinyLsm.step t.state (.start 2048 3)).map (fun s => { t with state := s })
      | .opening _ => (TinyLsm.step t.state (.opener choice)).map (fun s => { t with state := s })
      | .running _ => some { t with child := .looping 0 }
      | .failed _ => none
  | .looping i =>
      if i < records then
        (TinyLsm.step t.state (.call (write i))).map (fun s =>
          { t with state := s, child := .putting i })
      else (TinyLsm.step t.state .kill).map (fun s => { t with state := s, child := .exited })
  | .putting i =>
      (TinyLsm.step t.state (.writer choice)).map (fun s =>
        { t with state := s, child := if s.isIdle then .acking i else .putting i })
  | .acking _ => none
  | .exited => none

/-- A move of the parent that opens the directory again. -/
def reopen (t : Trial) (choice : ℕ) : Option Trial :=
  match t.parent with
  | .reopening lastAcked =>
      match t.state.status with
      | .down =>
          (TinyLsm.step t.state (.start Database.kDefaultFlushThresholdBytes
            Database.kDefaultCompactionTriggerCount)).map (fun s => { t with state := s })
      | .opening _ => (TinyLsm.step t.state (.opener choice)).map (fun s => { t with state := s })
      | .running _ => some { t with parent := .checking lastAcked 0 true }
      | .failed _ => some { t with parent := .finished false }
  | _ => none

/-- A round of the loop that looks up the keys. -/
def check (t : Trial) : Option Trial :=
  match t.parent, t.state.status with
  | .checking lastAcked i ok, .running p =>
      if (i : ℤ) ≤ lastAcked then
        match p.db.get (key i) with
        | .error _ => some { t with parent := .aborted }
        | .ok found =>
            some { t with parent := .checking lastAcked (i + 1) (ok && found == some (value i)) }
      else some { t with parent := .finished ok }
  | _, _ => none

/-- One step of a trial with so many records. -/
def step (records : ℕ) (t : Trial) : TrialAction → Option Trial
  | .child choice => t.runChild records choice
  | .ack written =>
      match t.child with
      | .acking i =>
          some { t with
            pipe := if written then t.pipe ++ message i else t.pipe
            child := .looping (i + 1) }
      | _ => none
  | .compactor count =>
      (TinyLsm.step t.state (.compactor count)).map (fun s => { t with state := s })
  | .read count =>
      match t.parent with
      | .collecting lastAcked buf =>
          if 0 < count ∧ count ≤ 256 ∧ count ≤ t.pipe.length then
            match drain (buf ++ t.pipe.take count).length lastAcked (buf ++ t.pipe.take count) with
            | none => some { t with parent := .aborted }
            | some (lastAcked, buf) =>
                some { t with pipe := t.pipe.drop count, parent := .collecting lastAcked buf }
          else none
      | _ => none
  | .stop =>
      match t.parent with
      | .collecting lastAcked _ => some { t with parent := .killing lastAcked }
      | _ => none
  | .kill =>
      match t.parent with
      | .killing lastAcked =>
          match t.state.status with
          | .down => some { t with child := .exited, parent := .reopening lastAcked }
          | _ =>
              (TinyLsm.step t.state .kill).map (fun s =>
                { t with state := s, child := .exited, parent := .reopening lastAcked })
      | _ => none
  | .reopen choice => t.reopen choice
  | .check => t.check

end Trial

/-! ### Acknowledgements -/

/-- What has been read is parsed in the same way in whatever pieces it arrives: the acknowledgements
that are there as a whole are taken out, and the last of them is kept. -/
theorem drain_messages {is : List ℕ} (his : ∀ i ∈ is, i < 2 ^ 31) {buf pipe : Bytes}
    (hbuf : buf ++ pipe = is.flatMap message) {rounds : ℕ} (hrounds : buf.length ≤ rounds)
    (lastAcked : ℤ) :
  ∃ acked pending buf', is = acked ++ pending ∧ buf' ++ pipe = pending.flatMap message
    ∧ drain rounds lastAcked buf = some (((acked.map Int.ofNat).getLast?).getD lastAcked, buf')
  := by
  induction rounds generalizing is buf lastAcked with
  | zero => exact ⟨[], is, buf, rfl, hbuf, rfl⟩
  | succ rounds ih =>
      cases hline : Lines.nextLine newline buf with
      | none => exact ⟨[], is, buf, rfl, hbuf, by simp only [drain, hline]; rfl⟩
      | some split =>
          obtain ⟨line, rest⟩ := split
          obtain ⟨rfl, hmem⟩ := Lines.nextLine_eq_some.mp hline
          cases is with
          | nil => simp at hbuf
          | cons i is =>
              have hfirst : Lines.nextLine newline ((i :: is).flatMap message)
                  = some (toText i, is.flatMap message) := by
                rw [List.flatMap_cons, message, List.append_assoc, List.singleton_append]
                exact Lines.nextLine_append (newline_notMem_toText i)
              rw [← hbuf, List.append_assoc, List.cons_append,
                Lines.nextLine_append hmem, Option.some.injEq, Prod.mk.injEq] at hfirst
              obtain ⟨rfl, hrest⟩ := hfirst
              obtain ⟨acked, pending, buf', rfl, hpending, hdrain⟩ :=
                ih (fun j hj => his j (List.mem_cons_of_mem _ hj)) hrest
                  (by simp at hrounds; omega) i
              refine ⟨i :: acked, pending, buf', rfl, hpending, ?_⟩
              simp only [drain, hline, stoi_toText (his i List.mem_cons_self), hdrain]
              cases acked with
              | nil => rfl
              | cons j acked => simp [List.getLast?_cons]

theorem key_injective :
  Function.Injective key
  := by
  intro i j h
  have hdigits := List.append_cancel_left h
  have hlt : ∀ n, ∀ d ∈ Numeral.numeral 10 6 n, d < 10 :=
    fun n d hd => Numeral.lt_of_mem_numeral (by decide) hd
  have hnumeral := congrArg (List.map digitValue) hdigits
  rw [map_digitValue_map_digitChar (hlt i), map_digitValue_map_digitChar (hlt j)] at hnumeral
  have hvalue := congrArg (Numeral.value 10) hnumeral
  rwa [Numeral.value_numeral, Numeral.value_numeral] at hvalue

theorem write_inRange {i : ℕ} (h : i < 2 ^ 31) :
  (write i).InRange
  := by
  have hkey : (key i).length ≤ 14 := by
    rw [key, List.length_append, List.length_map]
    have := Numeral.length_numeral_le (b := 10) (k := 10) (by decide) (by decide : 6 ≤ 10)
      (h.trans (by decide : 2 ^ 31 < 10 ^ 10))
    simp
    omega
  have hvalue : (value i).length ≤ 20 := by
    rw [value, List.length_append]
    have := length_toText_le h
    simp
    omega
  constructor
  · change (key i).length < 2 ^ 32
    omega
  · change (value i).length < 2 ^ 32
    omega

/-! ### The invariant of a trial -/

/-- The `put` of this round has returned. -/
def Returned (s : State) (i : ℕ) : Prop :=
  ⟨write i, .returned⟩ ∈ s.calls

/-- All rounds up to this one have returned. -/
def Kept (s : State) (lastAcked : ℤ) : Prop :=
  ∀ i : ℕ, (i : ℤ) ≤ lastAcked → Returned s i

/-- What the place of the child says about its database. -/
def Child.Fits (records : ℕ) (s : State) : Child → Prop
  | opening => True
  | looping i => ∀ j < i, Returned s j
  | putting i => i < records ∧ (∀ j < i, Returned s j)
      ∧ ∀ p, s.status = .running p → p.writer.operation = some (write i)
  | acking i => i < records ∧ ∀ j ≤ i, Returned s j
  | exited => True

/-- What the place of the parent says about the acknowledgements and the directory. -/
def Parent.Fits (t : Trial) : Parent → Prop
  | collecting lastAcked buf => Kept t.state lastAcked
      ∧ ∃ is : List ℕ, buf ++ t.pipe = is.flatMap message
        ∧ ∀ i ∈ is, i < 2 ^ 31 ∧ ∀ j ≤ i, Returned t.state j
  | killing lastAcked => Kept t.state lastAcked
  | reopening lastAcked => Kept t.state lastAcked ∧ t.child = .exited
  | checking lastAcked _ ok => Kept t.state lastAcked ∧ t.child = .exited ∧ ok = true
      ∧ ∃ p, t.state.status = .running p
  | finished ok => t.child = .exited ∧ ok = true
  | aborted => False

/-- What holds in every state of a trial. -/
structure Trial.Good (records : ℕ) (t : Trial) : Prop where
  settled : t.state.IsSettled
  writes : ∀ op ∈ t.state.begun, ∃ i, op = write i
  child : t.child.Fits records t.state
  parent : t.parent.Fits t

theorem Returned.step {s t : State} {a : Action} {i : ℕ} (h : Returned s i)
    (hstep : step s a = some t) (ha : a.noFailure) :
  Returned t i
  := by
  obtain ⟨c, ended, -, -, hcalls⟩ := step_cases hstep ha
  rw [Returned, hcalls]
  exact List.mem_append_left _ h

/-- What the database of a trial does keeps its keys settled. -/
theorem settled_step {s t : State} {a : Action} (hs : s.IsSettled)
    (hwrites : ∀ op ∈ s.begun, ∃ i, op = write i) (hstep : step s a = some t) (ha : a.noFailure)
    (hbegins : ∀ op ∈ a.begins, ∃ i < 2 ^ 31, op = write i) :
  t.IsSettled ∧ ∀ op ∈ t.begun, ∃ i, op = write i
  := by
  constructor
  · apply hs.step hstep ha
    · cases a with
      | call op =>
          obtain ⟨i, hi, rfl⟩ := hbegins op (List.mem_singleton_self op)
          exact write_inRange hi
      | _ => trivial
    · intro op hop b hb hkey
      obtain ⟨i, -, rfl⟩ := hbegins op hop
      obtain ⟨j, rfl⟩ := hwrites b hb
      rw [key_injective hkey]
  · rw [begun_step hstep ha, List.forall_mem_append]
    refine ⟨hwrites, ?_⟩
    intro op hop
    obtain ⟨i, -, rfl⟩ := hbegins op hop
    exact ⟨i, rfl⟩

/-- The `put` of the child goes on until it returns. -/
theorem put_step {s t : State} {count i : ℕ} (hs : s.IsSettled)
    (hop : ∀ p, s.status = .running p → p.writer.operation = some (write i))
    (hstep : step s (.writer count) = some t) :
  ∃ q, t.status = .running q
    ∧ (if t.isIdle then Returned t i else q.writer.operation = some (write i))
  := by
  have hwf := hs.sound.wellFormed
  have hmeans := hs.sound.means
  obtain ⟨disk, status, calls⟩ := s
  obtain ⟨c, ended, hstatus, hdisk, hcalls⟩ := step_cases hstep rfl
  obtain ⟨disk', status', calls'⟩ := t
  simp only at hop hwf hmeans hstatus hdisk hcalls
  cases hstatus with
  | writer hwriter =>
      have hreturned := hmeans.returned_writerStep hwf hdisk hwriter
      obtain ⟨q, rfl, hbegun⟩ := hwriter.begun
      refine ⟨q, rfl, ?_⟩
      rw [hop _ rfl, Option.toList_some] at hbegun
      split_ifs with hidle
      · obtain ⟨q', hq, hw⟩ := State.isIdle_iff.mp hidle
        obtain rfl := Status.running.inj hq
        rw [hw] at hbegun
        simp only [Writer.operation, Option.toList_none, List.append_nil,
          List.map_eq_singleton_iff] at hbegun
        obtain ⟨⟨op, outcome⟩, rfl, rfl⟩ := hbegun
        have houtcome := hreturned _ (List.mem_singleton_self _)
        dsimp only at houtcome
        rw [Returned, hcalls, houtcome]
        simp
      · cases hw : q.writer with
        | idle => exact absurd (State.isIdle_iff.mpr ⟨q, rfl, hw⟩) hidle
        | _ =>
            rw [hw] at hbegun
            have hlength := congrArg List.length hbegun
            simp only [Writer.operation, Option.toList_some, List.length_append, List.length_map,
              List.length_singleton] at hlength
            obtain rfl : ended = [] := List.eq_nil_of_length_eq_zero (by omega)
            simpa [Writer.operation] using hbegun

theorem compactor_step {s t : State} {count : ℕ} (hs : s.IsSettled)
    (hstep : step s (.compactor count) = some t) :
  ∃ p q, s.status = .running p ∧ t.status = .running q ∧ q.writer = p.writer
  := by
  have hwf := hs.sound.wellFormed
  have hmeans := hs.sound.means
  obtain ⟨disk, status, calls⟩ := s
  obtain ⟨c, ended, hstatus, hdisk, -⟩ := step_cases hstep rfl
  obtain ⟨disk', status', calls'⟩ := t
  simp only at hwf hmeans hstatus hdisk
  cases hstatus with
  | @compactor p count c status ended hcompactor =>
      obtain ⟨q, rfl, -⟩ := hmeans.compactorStep hwf hdisk hcompactor
      obtain ⟨q', hq, hwriter, -⟩ | ⟨hdown, -⟩ := hcompactor.begun
      · obtain rfl := Status.running.inj hq
        exact ⟨p, q, rfl, rfl, hwriter⟩
      · simp at hdown

theorem Child.Fits.mono {records : ℕ} {s s' : State} {child : Child} (h : child.Fits records s)
    (hreturned : ∀ i, Returned s i → Returned s' i)
    (hrunning : ∀ q, s'.status = .running q →
      ∃ p, s.status = .running p ∧ q.writer = p.writer) :
  child.Fits records s'
  := by
  cases child with
  | opening => trivial
  | looping i => exact fun j hj => hreturned j (h j hj)
  | putting i =>
      refine ⟨h.1, fun j hj => hreturned j (h.2.1 j hj), ?_⟩
      intro q hq
      obtain ⟨p, hp, hwriter⟩ := hrunning q hq
      rw [hwriter]
      exact h.2.2 p hp
  | acking i => exact ⟨h.1, fun j hj => hreturned j (h.2 j hj)⟩
  | exited => trivial

theorem Parent.Fits.mono {t t' : Trial} {parent : Parent} (h : parent.Fits t)
    (hreturned : ∀ i, Returned t.state i → Returned t'.state i) (hpipe : t'.pipe = t.pipe)
    (hexited : t.child = .exited → t'.child = .exited
      ∧ ((∃ p, t.state.status = .running p) → ∃ p, t'.state.status = .running p)) :
  parent.Fits t'
  := by
  have hkept : ∀ lastAcked, Kept t.state lastAcked → Kept t'.state lastAcked :=
    fun lastAcked hkept i hi => hreturned i (hkept i hi)
  cases parent with
  | collecting lastAcked buf =>
      obtain ⟨hlast, is, hbuf, his⟩ := h
      refine ⟨hkept _ hlast, is, by rw [hpipe, hbuf], ?_⟩
      exact fun i hi => ⟨(his i hi).1, fun j hj => hreturned j ((his i hi).2 j hj)⟩
  | killing lastAcked => exact hkept _ h
  | reopening lastAcked => exact ⟨hkept _ h.1, (hexited h.2).1⟩
  | checking lastAcked i ok =>
      obtain ⟨hlast, hchild, hok, hrunning⟩ := h
      exact ⟨hkept _ hlast, (hexited hchild).1, hok, (hexited hchild).2 hrunning⟩
  | finished ok => exact ⟨(hexited h.1).1, h.2⟩
  | aborted => exact h

namespace Trial

variable {records : ℕ} {t u : Trial}

/-- A move of the database in a trial. -/
theorem Good.move (h : t.Good records) {s : State} {a : Action}
    (hstep : TinyLsm.step t.state a = some s) (ha : a.noFailure)
    (hbegins : ∀ op ∈ a.begins, ∃ i < 2 ^ 31, op = write i) (hu : u.state = s)
    (hchild : u.child.Fits records s)
    (hparent : (∀ i, Returned t.state i → Returned s i) → u.parent.Fits u) :
  u.Good records
  := by
  subst hu
  obtain ⟨hsettled, hwrites⟩ := settled_step h.settled h.writes hstep ha hbegins
  exact ⟨hsettled, hwrites, hchild, hparent (fun i hi => hi.step hstep ha)⟩

/-- A move of the child, which has not ended. -/
theorem Good.childMove (h : t.Good records) (hne : t.child ≠ .exited) {s : State} {a : Action}
    (hstep : TinyLsm.step t.state a = some s) (ha : a.noFailure)
    (hbegins : ∀ op ∈ a.begins, ∃ i < 2 ^ 31, op = write i) {child : Child}
    (hchild : child.Fits records s) :
  Good records ⟨s, child, t.pipe, t.parent⟩
  := by
  -- The parent does not open the directory as long as the child is there.
  apply h.move hstep ha hbegins rfl hchild
  exact fun hreturned => h.parent.mono hreturned rfl (fun hexited => absurd hexited hne)

theorem Good.runChild (hrecords : records < 2 ^ 31) (h : t.Good records) {choice : ℕ}
    (hstep : t.runChild records choice = some u) :
  u.Good records
  := by
  have hfits := h.child
  obtain ⟨state, child, pipe, parent⟩ := t
  dsimp only [Trial.runChild] at hstep hfits
  cases child with
  | opening =>
      cases hs : state.status with
      | down =>
          simp only [hs, Option.map_eq_some_iff] at hstep
          obtain ⟨s, hstep, rfl⟩ := hstep
          exact h.childMove (by simp) hstep rfl (by simp [Action.begins]) trivial
      | opening o =>
          simp only [hs, Option.map_eq_some_iff] at hstep
          obtain ⟨s, hstep, rfl⟩ := hstep
          exact h.childMove (by simp) hstep rfl (by simp [Action.begins]) trivial
      | running p =>
          simp only [hs, Option.some.injEq] at hstep
          subst hstep
          refine ⟨h.settled, h.writes, by simp [Child.Fits], ?_⟩
          exact h.parent.mono (fun _ hi => hi) rfl (by simp)
      | failed e => simp [hs] at hstep
  | looping i =>
      dsimp only at hstep
      split_ifs at hstep with hi
      · obtain ⟨s, hmove, rfl⟩ := Option.map_eq_some_iff.mp hstep
        apply h.childMove (by simp) hmove rfl
        · intro op hop
          exact ⟨i, hi.trans hrecords, List.mem_singleton.mp hop⟩
        · refine ⟨hi, fun j hj => (hfits j hj).step hmove rfl, ?_⟩
          obtain ⟨p, -, -, -, hrun⟩ := State.call_cases hmove
          intro q hq
          obtain rfl := Status.running.inj (hrun.symm.trans hq)
          rfl
      · obtain ⟨s, hmove, rfl⟩ := Option.map_eq_some_iff.mp hstep
        exact h.childMove (by simp) hmove rfl (by simp [Action.begins]) trivial
  | putting i =>
      obtain ⟨s, hmove, rfl⟩ := Option.map_eq_some_iff.mp hstep
      obtain ⟨hi, hbefore, hop⟩ := hfits
      apply h.childMove (by simp) hmove rfl (by simp [Action.begins])
      obtain ⟨q, hq, hput⟩ := put_step h.settled hop hmove
      split_ifs at hput ⊢ with hidle
      · refine ⟨hi, fun j hj => ?_⟩
        obtain hj | rfl := Nat.lt_or_eq_of_le hj
        · exact (hbefore j hj).step hmove rfl
        · exact hput
      · refine ⟨hi, fun j hj => (hbefore j hj).step hmove rfl, ?_⟩
        intro q' hq'
        obtain rfl := Status.running.inj (hq.symm.trans hq')
        exact hput
  | acking i => simp at hstep
  | exited => simp at hstep

theorem Good.reopen (h : t.Good records) {choice : ℕ} (hstep : t.reopen choice = some u) :
  u.Good records
  := by
  have hfits := h.parent
  obtain ⟨state, child, pipe, parent⟩ := t
  dsimp only [Trial.reopen] at hstep hfits
  cases parent with
  | reopening lastAcked =>
      obtain ⟨hkept, rfl⟩ := hfits
      dsimp only at hkept
      cases hs : state.status with
      | down =>
          simp only [hs, Option.map_eq_some_iff] at hstep
          obtain ⟨s, hstep, rfl⟩ := hstep
          refine h.move hstep rfl (by simp [Action.begins]) rfl trivial ?_
          exact fun hreturned => ⟨fun i hi => hreturned i (hkept i hi), rfl⟩
      | opening o =>
          simp only [hs, Option.map_eq_some_iff] at hstep
          obtain ⟨s, hstep, rfl⟩ := hstep
          refine h.move hstep rfl (by simp [Action.begins]) rfl trivial ?_
          exact fun hreturned => ⟨fun i hi => hreturned i (hkept i hi), rfl⟩
      | running p =>
          simp only [hs, Option.some.injEq] at hstep
          subst hstep
          exact ⟨h.settled, h.writes, trivial, hkept, rfl, rfl, p, hs⟩
      | failed e =>
          have hmeans := h.settled.sound.means
          dsimp only at hmeans
          rw [hs] at hmeans
          exact absurd hmeans id
  | _ => simp at hstep

/-- A key that is looked up has been acknowledged, and is found with its value. -/
theorem Good.check (h : t.Good records) (hstep : t.check = some u) :
  u.Good records
  := by
  have hfits := h.parent
  obtain ⟨state, child, pipe, parent⟩ := t
  dsimp only [Trial.check] at hstep hfits
  cases parent with
  | checking lastAcked i ok =>
      obtain ⟨hkept, rfl, rfl, p, hp⟩ := hfits
      dsimp only at hkept hp
      simp only [hp] at hstep
      split_ifs at hstep with hi
      · have hget : p.db.get (key i) = .ok (some (value i)) :=
          (h.settled.keeps hp).returned _ (hkept i hi) rfl
        simp only [hget, beq_self_eq_true, Bool.and_true, Option.some.injEq] at hstep
        subst hstep
        exact ⟨h.settled, h.writes, trivial, hkept, rfl, rfl, p, hp⟩
      · obtain rfl := Option.some.inj hstep
        exact ⟨h.settled, h.writes, trivial, rfl, rfl⟩
  | _ => simp at hstep

theorem Good.read (h : t.Good records) {count : ℕ}
    (hstep : Trial.step records t (.read count) = some u) :
  u.Good records
  := by
  have hfits := h.parent
  obtain ⟨state, child, pipe, parent⟩ := t
  dsimp only [Trial.step] at hstep hfits
  cases parent with
  | collecting lastAcked buf =>
      obtain ⟨hkept, is, hbuf, his⟩ := hfits
      dsimp only at hkept hbuf his hstep
      split_ifs at hstep
      have hsplit : (buf ++ pipe.take count) ++ pipe.drop count = is.flatMap message := by
        rw [List.append_assoc, List.take_append_drop, hbuf]
      obtain ⟨acked, pending, buf', rfl, hbuf', hdrain⟩ :=
        drain_messages (fun i hi => (his i hi).1) hsplit le_rfl lastAcked
      rw [List.forall_mem_append] at his
      simp only [hdrain, Option.some.injEq] at hstep
      subst hstep
      refine ⟨h.settled, h.writes, h.child, ?_, pending, hbuf', his.2⟩
      cases hlast : (acked.map Int.ofNat).getLast? with
      | none => exact hkept
      | some last =>
          obtain ⟨i, hi, rfl⟩ := List.mem_map.mp (List.mem_of_getLast? hlast)
          intro j hj
          exact (his.1 i hi).2 j (Int.ofNat_le.mp hj)
  | _ => simp at hstep

theorem Good.step (hrecords : records < 2 ^ 31) (h : t.Good records) {a : TrialAction}
    (hstep : Trial.step records t a = some u) :
  u.Good records
  := by
  have hchild := h.child
  have hparent := h.parent
  cases a with
  | child choice => exact h.runChild hrecords hstep
  | reopen choice => exact h.reopen hstep
  | check => exact h.check hstep
  | read count => exact h.read hstep
  | ack written =>
      obtain ⟨state, child, pipe, parent⟩ := t
      dsimp only [Trial.step] at hstep hchild hparent
      cases child with
      | acking i =>
          obtain ⟨hi, hreturned⟩ := hchild
          obtain rfl := Option.some.inj hstep
          refine ⟨h.settled, h.writes, fun j hj => hreturned j (Nat.le_of_lt_succ hj), ?_⟩
          cases parent with
          | collecting lastAcked buf =>
              obtain ⟨hkept, is, hbuf, his⟩ := hparent
              cases written with
              | false => exact ⟨hkept, is, hbuf, his⟩
              | true =>
                  refine ⟨hkept, is ++ [i], ?_, ?_⟩
                  · dsimp only at hbuf ⊢
                    rw [if_pos rfl, ← List.append_assoc, hbuf, List.flatMap_append,
                      List.flatMap_singleton]
                  · rw [List.forall_mem_append, List.forall_mem_singleton]
                    exact ⟨his, hi.trans hrecords, hreturned⟩
          | killing lastAcked => exact hparent
          | reopening lastAcked => simp [Parent.Fits] at hparent
          | checking lastAcked j ok => simp [Parent.Fits] at hparent
          | finished ok => simp [Parent.Fits] at hparent
          | aborted => exact hparent
      | _ => simp at hstep
  | compactor count =>
      obtain ⟨s, hmove, rfl⟩ := Option.map_eq_some_iff.mp hstep
      obtain ⟨p, q, hp, hq, hwriter⟩ := compactor_step h.settled hmove
      refine h.move hmove rfl (by simp [Action.begins]) rfl ?_ ?_
      · apply hchild.mono (fun i hi => hi.step hmove rfl)
        intro q' hq'
        obtain rfl := Status.running.inj (hq.symm.trans hq')
        exact ⟨p, hp, hwriter⟩
      · exact fun hreturned => hparent.mono hreturned rfl (fun hexited => ⟨hexited, fun _ => ⟨q, hq⟩⟩)
  | stop =>
      obtain ⟨state, child, pipe, parent⟩ := t
      dsimp only [Trial.step] at hstep hparent
      cases parent with
      | collecting lastAcked buf =>
          obtain rfl := Option.some.inj hstep
          exact ⟨h.settled, h.writes, hchild, hparent.1⟩
      | _ => simp at hstep
  | kill =>
      obtain ⟨state, child, pipe, parent⟩ := t
      dsimp only [Trial.step] at hstep hparent
      cases parent with
      | killing lastAcked =>
          dsimp only at hstep
          split at hstep
          · obtain rfl := Option.some.inj hstep
            exact ⟨h.settled, h.writes, trivial, hparent, rfl⟩
          · obtain ⟨s, hmove, rfl⟩ := Option.map_eq_some_iff.mp hstep
            refine h.move hmove rfl (by simp [Action.begins]) rfl trivial ?_
            exact fun hreturned => ⟨fun i hi => hreturned i (hparent i hi), rfl⟩
      | _ => simp at hstep

theorem good_init (records : ℕ) :
  Trial.init.Good records
  where
    settled := isSettled_init
    writes := by simp [State.begun, State.init, Trial.init]
    child := trivial
    parent := by
      refine ⟨?_, [], rfl, by simp⟩
      intro i hi
      omega

/-- The parent can always go on, until it has finished. -/
theorem Good.goesOn (h : t.Good records) (hne : ∀ ok, t.parent ≠ .finished ok) :
  ∃ a ∈ [TrialAction.stop, .kill, .reopen 0, .check], (Trial.step records t a).isSome
  := by
  have hfits := h.parent
  have hmeans := h.settled.sound.means
  obtain ⟨state, child, pipe, parent⟩ := t
  dsimp only at hfits hmeans hne
  cases parent with
  | collecting lastAcked buf => exact ⟨.stop, by simp, rfl⟩
  | killing lastAcked =>
      refine ⟨.kill, by simp, ?_⟩
      cases hs : state.status with
      | down => simp [Trial.step, hs]
      | opening o => simp [Trial.step, hs, TinyLsm.step, Status.move]
      | running p => simp [Trial.step, hs, TinyLsm.step, Status.move]
      | failed e =>
          rw [hs] at hmeans
          exact absurd hmeans id
  | reopening lastAcked =>
      refine ⟨.reopen 0, by simp, ?_⟩
      cases hs : state.status with
      | opening o =>
          have hmove : (o.move 0).isSome := by
            cases o with
            | cleaning thr trig leftover =>
                cases leftover with
                | nil => rfl
                | cons n ns => rfl
            | _ => rfl
          simp [Trial.step, Trial.reopen, hs, TinyLsm.step, Status.move, hmove]
      | _ => simp [Trial.step, Trial.reopen, hs, TinyLsm.step, Status.move]
  | checking lastAcked i ok =>
      refine ⟨.check, by simp, ?_⟩
      obtain ⟨-, -, -, p, hp⟩ := hfits
      obtain ⟨found, hget, -⟩ := (h.settled.keeps hp).get (key i)
      dsimp only at hp
      simp only [Trial.step, Trial.check, hp, hget]
      split_ifs
      · rfl
      · rfl
  | finished ok => exact absurd rfl (hne ok)
  | aborted => exact absurd hfits id

end Trial

/-- A trial reports no lost write and no failing restart, in whatever way its processes interleave and
wherever the child is killed; and its parent is never stuck. -/
theorem runTrial_true {records : ℕ} (hrecords : records < 2 ^ 31) {t : Trial}
    (h : Reaches (Trial.step records) (fun _ _ _ => True) Trial.init t) :
  t.parent ≠ .aborted ∧ t.parent ≠ .finished false
    ∧ (t.parent ≠ .finished true →
      ∃ a ∈ [TrialAction.stop, .kill, .reopen 0, .check], (Trial.step records t a).isSome)
  := by
  have hgood := h.invariant (Trial.good_init records)
    (fun _ _ _ hgood hstep _ => hgood.step hrecords hstep)
  have hfits := hgood.parent
  have hfalse : t.parent ≠ .finished false := by
    intro hparent
    rw [hparent] at hfits
    exact absurd hfits.2 (by simp)
  refine ⟨?_, hfalse, fun htrue => hgood.goesOn ?_⟩
  · intro hparent
    rw [hparent] at hfits
    exact hfits
  · intro ok
    cases ok with
    | false => exact hfalse
    | true => exact htrue

/-- A result is reported. -/
def Parent.isFinished : Parent → Bool
  | finished _ => true
  | _ => false

/-- The child is killed while the second record is half written, and the log is repaired. -/
def tornTrial : List TrialAction :=
  List.replicate 6 (.child 0)
    ++ [.child 34, .child 0, .child 0, .ack true, .read 1, .read 1, .child 0, .child 7, .stop, .kill]
    ++ List.replicate 6 (.reopen 0) ++ [.check, .check]

theorem runTrial_true_torn :
  ∃ t, run (Trial.step 3) Trial.init tornTrial = some t ∧ t.parent = .finished true
  := by
  have hrun : (run (guarded (Trial.step 3) (fun _ _ => true)) Trial.init tornTrial).any
      (fun t => t.parent.isFinished) = true := by
    decide +kernel
  obtain ⟨t, ht, hfinished⟩ := exists_of_run hrun
  refine ⟨t, ht, ?_⟩
  have hreach : Reaches (Trial.step 3) (fun _ _ _ => True) Trial.init t :=
    Reaches.of_run ht (fun _ _ _ _ => trivial)
  obtain ⟨-, hfalse, -⟩ := runTrial_true (by decide) hreach
  cases hparent : t.parent with
  | finished ok =>
      cases ok with
      | false => exact absurd hparent hfalse
      | true => rfl
  | _ => simp [hparent, Parent.isFinished] at hfinished

end Harness

end TinyLsm
