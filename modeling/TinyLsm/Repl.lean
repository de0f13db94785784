import TinyLsm.Linearizability
import TinyLsm.Text
import TinyLsm.Library.Lines

/-!
# The REPL

The program of `repl.cpp`: it reads commands from its standard input, one a line, and prints what they
answer, while the compaction thread of its database runs and system calls fail.  What it prints is a
function of its input and of the map the database stands for when it begins (`transcript`); a run
prints this, or a prefix of it when the process ends before its time (`repl_prints_transcript`).  The maps
a session on an empty database can leave are those of words and of lines (`repl_leaves_iff`).
-/

namespace TinyLsm

open FileSystem Transition

namespace Repl

/-! ### Commands -/

/-- What a line asks for. -/
inductive Command where
  | empty
  | help
  | leave
  | write (op : Op)
  | get (key : Bytes)
  | scan (start stop : Bytes)
  | usage (text : Bytes)
  | unknown (command : Bytes)
deriving DecidableEq

/-- `iss >> word`: the next word, which is empty at the end of the line, and what follows it. -/
def readWord (text : Bytes) : Bytes × Bytes :=
  let rest := text.dropWhile isSpace
  (rest.takeWhile (fun c => !isSpace c), rest.dropWhile (fun c => !isSpace c))

/-- The value of a `PUT`: the rest of the line without the separator in front. -/
def readValue (rest : Bytes) : Bytes :=
  match Lines.getline newline rest with
  | none => []
  | some (value, _) =>
      match value with
      | 32 :: value => value
      | value => value

/-- The cases of the loop of `main`. -/
def parse (line : Bytes) : Command :=
  let (command, rest) := readWord line
  if command = [] then .empty
  else if command = chars "HELP" then .help
  else if command = chars "EXIT" ∨ command = chars "QUIT" then .leave
  else if command = chars "PUT" then
    let (key, rest) := readWord rest
    let value := readValue rest
    if key = [] ∨ value = [] then .usage (chars "usage: PUT <key> <value...>\n")
    else .write (.put key value)
  else if command = chars "GET" then
    let (key, _) := readWord rest
    if key = [] then .usage (chars "usage: GET <key>\n") else .get key
  else if command = chars "DEL" then
    let (key, _) := readWord rest
    if key = [] then .usage (chars "usage: DEL <key>\n") else .write (.remove key)
  else if command = chars "SCAN" then
    let (start, rest) := readWord rest
    let (stop, _) := readWord rest
    if start = [] ∨ stop = [] then .usage (chars "usage: SCAN <start> <end>\n")
    else .scan start stop
  else .unknown command

/-! ### Output -/

/-- `printHelp`. -/
def help : Bytes :=
  chars "Commands:\n"
    ++ chars "  PUT <key> <value...>   store value under key\n"
    ++ chars "  GET <key>              print the value for key, or (nil)\n"
    ++ chars "  DEL <key>              delete key\n"
    ++ chars "  SCAN <start> <end>     print every live key in [start, end)\n"
    ++ chars "  HELP                   show this message\n"
    ++ chars "  EXIT | QUIT            leave the REPL\n"

def prompt : Bytes :=
  chars "> "

def bye : Bytes :=
  chars "bye\n"

/-- What a `PUT` or a `DEL` prints when it has returned. -/
def done : Bytes :=
  chars "OK\n"

def unknown (command : Bytes) : Bytes :=
  chars "unknown command: " ++ command ++ chars " (type HELP)\n"

/-- What a `GET` prints. -/
def found : Option Bytes → Bytes
  | some value => value ++ [newline]
  | none => chars "(nil)\n"

/-- What a `SCAN` prints. -/
def listed (results : List (Bytes × Bytes)) : Bytes :=
  (if results = [] then chars "(empty)\n" else [])
    ++ results.flatMap (fun r => r.1 ++ chars " = " ++ r.2 ++ [newline])

/-- A path as `operator<<` prints it, in quotes and with its quotes and backslashes escaped. -/
def quoted (path : Bytes) : Bytes :=
  [34] ++ path.flatMap (fun c => if c = 34 ∨ c = 92 then [92, c] else [c]) ++ [34]

/-- What `main` prints when the database is open. -/
def greeting (dir : Bytes) (sstableCount : ℕ) : Bytes :=
  chars "tiny-lsm-kv REPL. Data directory: " ++ quoted dir ++ [newline]
    ++ (if 0 < sstableCount then
        chars "Recovered " ++ toText sstableCount ++ chars " SSTable(s) from a previous run.\n"
      else [])
    ++ chars "Type HELP for commands, EXIT to quit.\n"

/-! ### The program -/

/-- Where the main thread stands. -/
inductive Place where
  /-- Before the test of the loop. -/
  | prompting
  /-- In `db.put` or `db.remove`. -/
  | writing
  /-- `bye` is printed. -/
  | left
  /-- An exception has left `main`. -/
  | aborted
deriving DecidableEq

/-- The process, what it has not read yet, and what it has printed. -/
structure Session where
  state : State
  input : Bytes
  output : Bytes
  place : Place

inductive SessionAction where
  /-- The main thread reads a line and does what it asks for, up to the call of a write. -/
  | line
  | writer (count : ℕ)
  | writerFail (late : Bool)
  | compactor (count : ℕ)
  | compactorFail (late : Bool)
  /-- The destructor, after the loop. -/
  | close
  | kill

namespace Session

/-- The database is open, and the greeting is printed. -/
def init (s : State) (db : Database) (dir input : Bytes) : Session :=
  ⟨s, input, greeting dir db.sstableCount, .prompting⟩

def print (s : Session) (text : Bytes) : Session :=
  { s with output := s.output ++ text }

/-- An exception that nothing catches ends the process. -/
def abort (s : Session) (state : State) : Option Session :=
  (TinyLsm.step state .kill).map (fun state => { s with state := state, place := .aborted })

/-- The command of a line, after the prompt. -/
def command (s : Session) (db : Database) : Command → Option Session
  | .empty => some s
  | .help => some (s.print help)
  | .leave => some { s.print bye with place := .left }
  | .usage text => some (s.print text)
  | .unknown command => some (s.print (unknown command))
  | .write op =>
      (TinyLsm.step s.state (.call op)).map (fun state =>
        { s with state := state, place := .writing })
  | .get key =>
      match db.get key with
      | .error _ => s.abort s.state
      | .ok value => some (s.print (found value))
  | .scan start stop =>
      match db.scan start stop with
      | .error _ => s.abort s.state
      | .ok results => some (s.print (listed results))

/-- A round of the loop. -/
def line (s : Session) (db : Database) : Option Session :=
  let s := s.print prompt
  match Lines.getline newline s.input with
  | none => some { s.print bye with place := .left }
  | some (line, rest) => { s with input := rest }.command db (parse line)

/-- After a step of the writer: its call goes on, has returned or has thrown. -/
def written (s : Session) (state : State) : Option Session :=
  match state.calls.drop s.state.calls.length with
  | [] => some { s with state := state }
  | call :: _ =>
      if call.outcome = .returned then
        some { s.print done with state := state, place := .prompting }
      else s.abort state

/-- One step of the program. -/
def step (s : Session) (a : SessionAction) : Option Session :=
  match s.place, a with
  | .prompting, .line =>
      match s.state.status with
      | .running p => s.line p.db
      | _ => none
  | .writing, .writer count => (TinyLsm.step s.state (.writer count)).bind s.written
  | .writing, .writerFail late => (TinyLsm.step s.state (.writerFail late)).bind s.written
  | _, .compactor count =>
      (TinyLsm.step s.state (.compactor count)).map (fun state => { s with state := state })
  | _, .compactorFail late =>
      (TinyLsm.step s.state (.compactorFail late)).map (fun state => { s with state := state })
  | .left, .close => (TinyLsm.step s.state .close).map (fun state => { s with state := state })
  | _, .kill => (TinyLsm.step s.state .kill).map (fun state => { s with state := state })
  | _, _ => none

end Session

/-! ### The transcript -/

/-- The answer of a command on a map, and the map it leaves. -/
def answer (m : OrderedMap Bytes Bytes) : Command → Bytes × OrderedMap Bytes Bytes
  | .empty => ([], m)
  | .help => (help, m)
  | .leave => (bye, m)
  | .write (.put key value) => (done, m.insert key value)
  | .write (.remove key) => (done, m.erase key)
  | .get key => (found (m.find? key), m)
  | .scan start stop => (listed (m.range start stop), m)
  | .usage text => (text, m)
  | .unknown command => (unknown command, m)

/-- What is printed for some lines of input, and the map they leave. -/
def transcript (m : OrderedMap Bytes Bytes) : List Bytes → Bytes × OrderedMap Bytes Bytes
  | [] => (prompt ++ bye, m)
  | line :: lines =>
      let (text, m) := answer m (parse line)
      if parse line = .leave then (prompt ++ text, m)
      else
        let (rest, m) := transcript m lines
        (prompt ++ text ++ rest, m)

/-! ### Commands and their answers -/

theorem length_readWord_le (text : Bytes) :
  (readWord text).1.length + (readWord text).2.length ≤ text.length
  := by
  rw [readWord, ← List.length_append, List.takeWhile_append_dropWhile]
  exact (List.dropWhile_suffix _).length_le

theorem length_readValue_le (rest : Bytes) :
  (readValue rest).length ≤ rest.length
  := by
  rw [readValue]
  cases hline : Lines.getline newline rest with
  | none => simp
  | some split =>
      obtain ⟨value, after⟩ := split
      have hle := (Lines.getline_eq_some hline).2.length_le
      dsimp only
      split
      · simp at hle
        omega
      · exact hle

/-- The lines that write. -/
theorem parse_eq_write {line : Bytes} {op : Op} :
  parse line = .write op
    ↔ ((readWord line).1 = chars "PUT" ∧ (readWord (readWord line).2).1 ≠ []
        ∧ readValue (readWord (readWord line).2).2 ≠ []
        ∧ op = .put (readWord (readWord line).2).1 (readValue (readWord (readWord line).2).2))
      ∨ ((readWord line).1 = chars "DEL" ∧ (readWord (readWord line).2).1 ≠ []
        ∧ op = .remove (readWord (readWord line).2).1)
  := by
  constructor
  · intro h
    simp only [parse] at h
    split_ifs at h with hempty hhelp hleave hput husage hget husage hdel husage
    · left
      rw [not_or] at husage
      exact ⟨hput, husage.1, husage.2, (Command.write.inj h).symm⟩
    · right
      exact ⟨hdel, husage, (Command.write.inj h).symm⟩
  · rintro (⟨hput, hkey, hvalue, rfl⟩ | ⟨hdel, hkey, rfl⟩)
    · simp only [parse]
      rw [hput, if_neg (by decide), if_neg (by decide), if_neg (by decide), if_pos rfl,
        if_neg (by simp [hkey, hvalue])]
    · simp only [parse]
      rw [hdel, if_neg (by decide), if_neg (by decide), if_neg (by decide), if_neg (by decide),
        if_neg (by decide), if_pos rfl, if_neg hkey]

/-- What a line writes fits the fields of a record, if the line does. -/
theorem inRange_of_parse {line : Bytes} {op : Op} (h : parse line = .write op)
    (hline : line.length < 2 ^ 32) :
  op.InRange
  := by
  have hcommand := length_readWord_le line
  have hkey := length_readWord_le (readWord line).2
  have hvalue := length_readValue_le (readWord (readWord line).2).2
  obtain ⟨-, -, -, rfl⟩ | ⟨-, -, rfl⟩ := parse_eq_write.mp h
  · constructor
    · change (readWord (readWord line).2).1.length < 2 ^ 32
      omega
    · change (readValue (readWord (readWord line).2).2).length < 2 ^ 32
      omega
  · constructor
    · change (readWord (readWord line).2).1.length < 2 ^ 32
      omega
    · exact Nat.two_pow_pos 32

theorem isScan_range (m : OrderedMap Bytes Bytes) (start stop : Bytes) :
  IsScan m.find? start stop (m.range start stop)
  := by
  constructor
  · rw [OrderedMap.range_eq_filter]
    exact m.sorted.filter _
  · intro key value
    rw [OrderedMap.range_eq_filter, List.mem_filter, OrderedMap.mem_entries]
    simp only [decide_eq_true_eq]
    tauto

theorem find?_answer_write (m : OrderedMap Bytes Bytes) (op : Op) :
  (answer m (.write op)).2.find? = op.apply m.find?
  := by
  funext key
  cases op with
  | put k value =>
      rw [answer, OrderedMap.find?_insert, Op.apply]
      congr
  | remove k =>
      rw [answer, OrderedMap.find?_erase, Op.apply]
      congr

theorem answer_write (m : OrderedMap Bytes Bytes) (op : Op) :
  (answer m (.write op)).1 = done
  := by
  cases op with
  | put key value => rfl
  | remove key => rfl

/-! ### The invariant of a session -/

/-- What is printed in the end, and the map that is left, where some output is followed by the transcript
of some lines. -/
def follow (output : Bytes) (m : OrderedMap Bytes Bytes) (lines : List Bytes) :
    Bytes × OrderedMap Bytes Bytes :=
  (output ++ (transcript m lines).1, (transcript m lines).2)

/-- The lines of the input fit the fields of a record. -/
def Short (input : Bytes) : Prop :=
  ∀ line ∈ Lines.lines newline input, line.length < 2 ^ 32

instance (input : Bytes) : Decidable (Short input) :=
  inferInstanceAs (Decidable (∀ line ∈ Lines.lines newline input, line.length < 2 ^ 32))

theorem follow_nil (output : Bytes) (m : OrderedMap Bytes Bytes) :
  follow output m [] = (output ++ prompt ++ bye, m)
  := by
  rw [follow, transcript, List.append_assoc]

theorem follow_cons (output : Bytes) (m : OrderedMap Bytes Bytes) {line : Bytes}
    (lines : List Bytes) (h : parse line ≠ .leave) :
  follow output m (line :: lines)
    = follow (output ++ prompt ++ (answer m (parse line)).1) (answer m (parse line)).2 lines
  := by
  simp only [follow, transcript, if_neg h, List.append_assoc]

theorem follow_leave (output : Bytes) (m : OrderedMap Bytes Bytes) {line : Bytes}
    (lines : List Bytes) (h : parse line = .leave) :
  follow output m (line :: lines) = (output ++ prompt ++ bye, m)
  := by
  simp only [follow, transcript, h, if_pos, answer, List.append_assoc]

namespace Session

/-- What is printed so far is followed by the transcript of what is still to be read, and the database
stands for the map that the lines read so far have left. -/
def Follows (s : Session) (full : Bytes × OrderedMap Bytes Bytes) : Prop :=
  match s.place with
  | .prompting => ∃ m, follow s.output m (Lines.lines newline s.input) = full ∧ Short s.input
      ∧ ∀ p, s.state.status = .running p → p.writer = .idle ∧ p.Serving s.state.disk m.find?
  | .writing => ∃ m op,
      follow (s.output ++ done) (answer m (.write op)).2 (Lines.lines newline s.input) = full
      ∧ Short s.input
      ∧ ∀ p, s.state.status = .running p → p.writer.operation = some op
        ∧ ∃ m', p.Serving s.state.disk m' ∧ p.writer.Adds m.find? m'
  | .left => s.output = full.1
      ∧ ∀ p, s.state.status = .running p → p.writer = .idle ∧ p.Serving s.state.disk full.2.find?
  | .aborted => s.output <+: full.1 ∧ ∀ p, s.state.status ≠ .running p

variable {s t : Session} {full : Bytes × OrderedMap Bytes Bytes}

theorem Follows.isPrefix (h : s.Follows full) :
  s.output <+: full.1
  := by
  unfold Follows at h
  split at h
  · obtain ⟨m, rfl, -⟩ := h
    exact List.prefix_append _ _
  · obtain ⟨m, op, rfl, -⟩ := h
    rw [follow, List.append_assoc]
    exact List.prefix_append _ _
  · rw [h.1]
  · exact h.1

/-- A step of the process beside the main thread. -/
theorem Follows.aside (h : s.Follows full) {state : State}
    (hstate : ∀ q, state.status = .running q → ∃ p, s.state.status = .running p
      ∧ q.writer = p.writer ∧ ∀ m, p.Serving s.state.disk m → q.Serving state.disk m) :
  Follows { s with state := state } full
  := by
  unfold Follows at h ⊢
  dsimp only
  split at h
  · obtain ⟨m, hfull, hshort, hserving⟩ := h
    refine ⟨m, hfull, hshort, ?_⟩
    intro q hq
    obtain ⟨p, hp, hwriter, hkeeps⟩ := hstate q hq
    rw [hwriter]
    exact ⟨(hserving p hp).1, hkeeps _ (hserving p hp).2⟩
  · obtain ⟨m, op, hfull, hshort, hserving⟩ := h
    refine ⟨m, op, hfull, hshort, ?_⟩
    intro q hq
    obtain ⟨p, hp, hwriter, hkeeps⟩ := hstate q hq
    obtain ⟨hop, m', hserving', hadds⟩ := hserving p hp
    rw [hwriter]
    exact ⟨hop, m', hkeeps _ hserving', hadds⟩
  · refine ⟨h.1, ?_⟩
    intro q hq
    obtain ⟨p, hp, hwriter, hkeeps⟩ := hstate q hq
    rw [hwriter]
    exact ⟨(h.2 p hp).1, hkeeps _ (h.2 p hp).2⟩
  · refine ⟨h.1, ?_⟩
    intro q hq
    obtain ⟨p, hp, -⟩ := hstate q hq
    exact h.2 p hp

theorem Follows.compacted (h : s.Follows full) {state : State} {a : Action}
    (hstep : TinyLsm.step s.state a = some state) (ha : a.compacts) :
  Follows { s with state := state } full
  := by
  apply h.aside
  intro q hq
  cases hs : s.state.status with
  | running p =>
      obtain ⟨hspares, -, hserving⟩ := State.sparesClients hs hq hstep ha
      exact ⟨p, rfl, hspares.writer, hserving⟩
  | _ =>
      rw [TinyLsm.step, hs] at hstep
      cases a with
      | _ => simp [Status.move, Action.compacts] at hstep ha

/-- The end of the process. -/
theorem Follows.ended (h : s.Follows full) {state : State}
    (hstate : ∀ q, state.status ≠ .running q) :
  Follows { s with state := state } full
  := h.aside (fun q hq => absurd hq (hstate q))

theorem not_running_of_kill {state state' : State} (h : TinyLsm.step state .kill = some state')
    (q : Process) :
  state'.status ≠ .running q
  := by
  intro hq
  obtain ⟨c, ended, hstatus, -⟩ := step_cases h rfl
  rw [hq] at hstatus
  generalize state.status = status at hstatus
  cases hstatus

theorem not_running_of_close {state state' : State} (h : TinyLsm.step state .close = some state')
    (q : Process) :
  state'.status ≠ .running q
  := by
  intro hq
  obtain ⟨c, ended, hstatus, -⟩ := step_cases h rfl
  rw [hq] at hstatus
  generalize state.status = status at hstatus
  cases hstatus

/-- The main thread reads a line. -/
theorem Follows.line (h : s.Follows full) (hplace : s.place = .prompting) {p : Process}
    (hp : s.state.status = .running p) (hstep : s.line p.db = some t) :
  t.Follows full
  := by
  rw [Follows, hplace] at h
  obtain ⟨m, rfl, hshort, hserving⟩ := h
  obtain ⟨hidle, hserving⟩ := hserving p hp
  have hview : p.db.view = m.find? := by
    have hcounted := hserving.counted
    rwa [hidle] at hcounted
  have hsame : ∀ q, s.state.status = .running q → q.writer = .idle
      ∧ q.Serving s.state.disk m.find? := by
    intro q hq
    obtain rfl := Status.running.inj (hp.symm.trans hq)
    exact ⟨hidle, hserving⟩
  rw [Session.line] at hstep
  cases hline : Lines.getline newline s.input with
  | none =>
      simp only [print, hline, Option.some.injEq] at hstep
      subst hstep
      rw [Lines.lines_eq_nil hline, follow_nil]
      exact ⟨rfl, hsame⟩
  | some split =>
      obtain ⟨line, rest⟩ := split
      simp only [print, hline] at hstep
      rw [Short, Lines.lines_eq_cons hline, List.forall_mem_cons] at hshort
      rw [Lines.lines_eq_cons hline]
      -- A command that does not write prints its answer and leaves the map.
      have hprint : ∀ text, parse line ≠ .leave → answer m (parse line) = (text, m) →
          Follows ⟨s.state, rest, s.output ++ prompt ++ text, .prompting⟩
            (follow s.output m (line :: Lines.lines newline rest)) := by
        intro text hne hanswer
        rw [follow_cons _ _ _ hne, hanswer]
        exact ⟨m, rfl, hshort.2, hsame⟩
      cases hparse : parse line with
      | empty =>
          simp only [hparse, command, Option.some.injEq] at hstep
          subst hstep
          have h := hprint [] (by simp [hparse]) (by rw [hparse]; rfl)
          rwa [List.append_nil, ← hplace] at h
      | help =>
          simp only [hparse, command, Option.some.injEq] at hstep
          subst hstep
          rw [print, hplace]
          exact hprint help (by simp [hparse]) (by rw [hparse]; rfl)
      | leave =>
          simp only [hparse, command, Option.some.injEq] at hstep
          subst hstep
          rw [follow_leave _ _ _ hparse]
          exact ⟨rfl, hsame⟩
      | usage text =>
          simp only [hparse, command, Option.some.injEq] at hstep
          subst hstep
          rw [print, hplace]
          exact hprint text (by simp [hparse]) (by rw [hparse]; rfl)
      | unknown command =>
          simp only [hparse, Session.command, Option.some.injEq] at hstep
          subst hstep
          rw [print, hplace]
          exact hprint (unknown command) (by simp [hparse]) (by rw [hparse]; rfl)
      | get key =>
          have hget : p.db.get key = .ok (m.find? key) := by
            rw [Database.get_eq_view hserving.valid, hview]
          simp only [hparse, command, hget, Option.some.injEq] at hstep
          subst hstep
          rw [print, hplace]
          exact hprint (found (m.find? key)) (by simp [hparse]) (by rw [hparse]; rfl)
      | scan start stop =>
          obtain ⟨pairs, hscan, hpairs⟩ := Database.scan_eq_view hserving.valid start stop
          rw [hview] at hpairs
          obtain rfl := hpairs.unique (isScan_range m start stop)
          simp only [hparse, command, hscan, Option.some.injEq] at hstep
          subst hstep
          rw [print, hplace]
          exact hprint (listed (m.range start stop)) (by simp [hparse]) (by rw [hparse]; rfl)
      | write op =>
          simp only [hparse, command] at hstep
          obtain ⟨state, hcall, rfl⟩ := Option.map_eq_some_iff.mp hstep
          rw [follow_cons _ _ _ (by simp [hparse]), hparse, answer_write]
          obtain ⟨p', hp', hw, hdisk, hrun⟩ := State.call_cases hcall
          obtain rfl := Status.running.inj (hp.symm.trans hp')
          refine ⟨m, op, rfl, hshort.2, ?_⟩
          intro q hq
          obtain rfl := Status.running.inj (hrun.symm.trans hq)
          dsimp only
          rw [hdisk]
          exact ⟨rfl, m.find?, hserving.call hw (inRange_of_parse hparse hshort.1), rfl⟩

/-- The main thread moves in `put` or `remove`. -/
theorem Follows.written (h : s.Follows full) (hplace : s.place = .writing) {state : State}
    {a : Action} (hmove : TinyLsm.step s.state a = some state) (ha : a.writes)
    (hstep : s.written state = some t) :
  t.Follows full
  := by
  have hprinted := h.isPrefix
  rw [Follows, hplace] at h
  obtain ⟨m, op, hfull, hshort, hserving⟩ := h
  cases hs : s.state.status with
  | running p =>
      obtain ⟨hop, m', hserves, hadds⟩ := hserving p hs
      obtain ⟨q, ended, m'', hq, -, hcalls, hserves', hgoes⟩ :=
        State.callGoesOn hs hserves hmove ha
      rw [Session.written, hcalls, List.drop_left] at hstep
      obtain ⟨rfl, hsame, -, hadds'⟩ | ⟨op', outcome, rfl, hidle, hop', hallows⟩ := hgoes m.find?
      · obtain rfl := Option.some.inj hstep
        rw [Follows, hplace]
        refine ⟨m, op, hfull, hshort, ?_⟩
        intro q' hq'
        obtain rfl := Status.running.inj (hq.symm.trans hq')
        exact ⟨hsame.trans hop, m'', hserves', hadds' hadds⟩
      · obtain rfl : op = op' := by simpa [hop] using hop'
        dsimp only at hstep
        split_ifs at hstep with houtcome
        · obtain rfl := Option.some.inj hstep
          subst houtcome
          refine ⟨_, hfull, hshort, ?_⟩
          intro q' hq'
          obtain rfl := Status.running.inj (hq.symm.trans hq')
          have hm : m'' = op.apply m.find? := hallows hadds
          rw [find?_answer_write, ← hm]
          exact ⟨hidle, hserves'⟩
        · obtain ⟨state', hkill, rfl⟩ := Option.map_eq_some_iff.mp hstep
          exact ⟨hprinted, not_running_of_kill hkill⟩
  | _ =>
      rw [TinyLsm.step, hs] at hmove
      cases a with
      | _ => simp [Status.move, Action.writes] at hmove ha

theorem Follows.step {a : SessionAction} (h : s.Follows full) (hstep : s.step a = some t) :
  t.Follows full
  := by
  cases a with
  | line =>
      cases hplace : s.place with
      | prompting =>
          simp only [Session.step, hplace] at hstep
          split at hstep
          · exact h.line hplace (by assumption) hstep
          · simp at hstep
      | _ => simp [Session.step, hplace] at hstep
  | writer count =>
      cases hplace : s.place with
      | writing =>
          simp only [Session.step, hplace] at hstep
          obtain ⟨state, hmove, hstep⟩ := Option.bind_eq_some_iff.mp hstep
          exact h.written hplace hmove rfl hstep
      | _ => simp [Session.step, hplace] at hstep
  | writerFail late =>
      cases hplace : s.place with
      | writing =>
          simp only [Session.step, hplace] at hstep
          obtain ⟨state, hmove, hstep⟩ := Option.bind_eq_some_iff.mp hstep
          exact h.written hplace hmove rfl hstep
      | _ => simp [Session.step, hplace] at hstep
  | compactor count =>
      simp only [Session.step] at hstep
      obtain ⟨state, hmove, rfl⟩ := Option.map_eq_some_iff.mp hstep
      exact h.compacted hmove rfl
  | compactorFail late =>
      simp only [Session.step] at hstep
      obtain ⟨state, hmove, rfl⟩ := Option.map_eq_some_iff.mp hstep
      exact h.compacted hmove rfl
  | close =>
      cases hplace : s.place with
      | left =>
          simp only [Session.step, hplace] at hstep
          obtain ⟨state, hmove, rfl⟩ := Option.map_eq_some_iff.mp hstep
          rw [← hplace]
          exact h.ended (not_running_of_close hmove)
      | _ => simp [Session.step, hplace] at hstep
  | kill =>
      simp only [Session.step] at hstep
      obtain ⟨state, hmove, rfl⟩ := Option.map_eq_some_iff.mp hstep
      exact h.ended (not_running_of_kill hmove)

end Session

/-- A session on an open database that stands for a map prints the transcript of its input, whatever
the compaction thread does beside it; and only a beginning of it when a system call fails or the process
is killed. -/
theorem repl_prints_transcript {s : State} {p : Process}
    (hs : Reaches step (fun _ a _ => a.InRange) State.init s) (hp : s.status = .running p)
    (hidle : p.writer = .idle) {m : OrderedMap Bytes Bytes} (hm : p.db.view = m.find?)
    {dir input : Bytes} (hinput : Short input) {t : Session}
    (ht : Reaches Session.step (fun _ _ _ => True) (Session.init s p.db dir input) t) :
  t.output <+: greeting dir p.db.sstableCount ++ (transcript m (Lines.lines newline input)).1
    ∧ (t.place = .left →
      t.output = greeting dir p.db.sstableCount ++ (transcript m (Lines.lines newline input)).1
        ∧ ∀ q, t.state.status = .running q →
          q.db.view = (transcript m (Lines.lines newline input)).2.find?)
  := by
  have hserves := Status.serves_of_reaches hs
  rw [hp] at hserves
  obtain ⟨-, m', hserving⟩ := hserves
  have hview := hserving.counted
  rw [hidle] at hview
  obtain rfl : m.find? = m' := hm.symm.trans hview
  have hfollows : t.Follows (follow (greeting dir p.db.sstableCount) m (Lines.lines newline input)) := by
    apply ht.invariant _ (fun _ _ _ h hstep _ => h.step hstep)
    refine ⟨m, rfl, hinput, ?_⟩
    intro q hq
    obtain rfl := Status.running.inj (hp.symm.trans hq)
    exact ⟨hidle, hserving⟩
  refine ⟨hfollows.isPrefix, ?_⟩
  intro hplace
  rw [Session.Follows, hplace] at hfollows
  refine ⟨hfollows.1, ?_⟩
  intro q hq
  obtain ⟨hidle', hserving'⟩ := hfollows.2 q hq
  have hview' := hserving'.counted
  rwa [hidle'] at hview'

theorem view_of_empty {db : Database} (hsst : db.sstables.isEmpty)
    (hmem : db.memtable.entries.entries.isEmpty) :
  db.view = (OrderedMap.empty : OrderedMap Bytes Bytes).find?
  := by
  have hempty : db.memtable.entries = OrderedMap.empty := by
    apply OrderedMap.ext
    exact List.isEmpty_iff.mp hmem
  funext key
  rw [Database.view, Database.layers, List.isEmpty_iff.mp hsst, hempty]
  rfl

/-- A value with a blank in it is put, printed and listed; there is an empty line, and the last line has
no end. -/
def typed : Bytes :=
  chars "PUT a x y\nGET a\n\nSCAN a b\nQUIT"

/-- The actions of the session that reads it. -/
def typedActions : List SessionAction :=
  [.line, .writer 17, .writer 0, .writer 0, .line, .line, .line, .line]

theorem repl_prints_transcript_typed :
  ∃ s p t, run (guarded step (fun _ a => decide a.InRange)) State.init (launchActions 100 2) = some s
    ∧ s.status = .running p
    ∧ run (guarded Session.step (fun _ _ => true)) (Session.init s p.db (chars ".") typed)
        typedActions = some t
    ∧ t.output = greeting (chars ".") p.db.sstableCount
        ++ chars "> OK\n> x y\n> > a = x y\n> bye\n"
  := by
  have hrun : (run (guarded step (fun _ a => decide a.InRange)) State.init
      (launchActions 100 2)).any (fun s => s.runs (fun p => p.unlocked && p.db.sstables.isEmpty
        && p.db.memtable.entries.entries.isEmpty
        && (run (guarded Session.step (fun _ _ => true)) (Session.init s p.db (chars ".") typed)
          typedActions).any (fun t => t.place = .left))) = true := by
    decide +kernel
  obtain ⟨s, hs, hruns⟩ := exists_of_run hrun
  obtain ⟨p, hp, htest⟩ := State.runs_iff.mp hruns
  simp only [Bool.and_eq_true] at htest
  obtain ⟨⟨⟨hidle, hsst⟩, hmem⟩, hsession⟩ := htest
  obtain ⟨t, ht, hleft⟩ := exists_of_run hsession
  refine ⟨s, p, t, hs, hp, ht, ?_⟩
  have hreach : Reaches step (fun _ a _ => a.InRange) State.init s :=
    Reaches.of_run hs (fun _ _ _ ha => of_decide_eq_true ha)
  have hreach' : Reaches Session.step (fun _ _ _ => True) (Session.init s p.db (chars ".") typed) t :=
    Reaches.of_run ht (fun _ _ _ _ => trivial)
  obtain ⟨-, hprints⟩ := repl_prints_transcript hreach hp (Process.unlocked_iff.mp hidle)
    (view_of_empty hsst hmem) (by decide +kernel) hreach'
  rw [(hprints (of_decide_eq_true hleft)).1]
  congr 1

/-! ### What can be stored -/

/-- A text that `>>` reads as one word. -/
def IsWord (text : Bytes) : Prop :=
  text ≠ [] ∧ ∀ c ∈ text, isSpace c = false

/-- A line that puts a value under a key. -/
def putLine (e : Bytes × Bytes) : Bytes :=
  chars "PUT" ++ 32 :: (e.1 ++ 32 :: e.2)

theorem readWord_append {word rest : Bytes} (hword : IsWord word)
    (hrest : ∀ c ∈ rest.head?, isSpace c = true) :
  readWord (word ++ rest) = (word, rest)
  := by
  obtain ⟨hne, hword⟩ := hword
  have hall : ∀ c ∈ word, (!isSpace c) = true := by
    intro c hc
    rw [hword c hc]
    rfl
  have hdrop : (word ++ rest).dropWhile isSpace = word ++ rest := by
    cases word with
    | nil => exact absurd rfl hne
    | cons c word => simp [hword c List.mem_cons_self]
  rw [readWord, hdrop, List.takeWhile_append_of_pos hall, List.dropWhile_append_of_pos hall]
  cases rest with
  | nil => simp
  | cons c rest =>
      have hc := hrest c rfl
      simp [hc]

theorem readWord_blank (text : Bytes) :
  readWord (32 :: text) = readWord text
  := by
  rw [readWord, readWord, List.dropWhile_cons_of_pos (by decide)]

theorem readValue_blank {value : Bytes} (hvalue : newline ∉ value) :
  readValue (32 :: value) = value
  := by
  have hline : newline ∉ 32 :: value := by
    rw [List.mem_cons, not_or]
    exact ⟨by decide, hvalue⟩
  rw [readValue, Lines.getline_of_notMem hline (by simp)]
  rfl

theorem isWord_readWord {text : Bytes} (h : (readWord text).1 ≠ []) :
  IsWord (readWord text).1
  := by
  refine ⟨h, ?_⟩
  intro c hc
  have hnot := List.mem_takeWhile_imp hc
  simpa using hnot

theorem notMem_readValue {rest : Bytes} :
  newline ∉ readValue rest
  := by
  rw [readValue]
  cases hline : Lines.getline newline rest with
  | none => simp
  | some split =>
      obtain ⟨value, after⟩ := split
      have hvalue := (Lines.getline_eq_some hline).1
      dsimp only
      split
      · exact fun hmem => hvalue (List.mem_cons_of_mem _ hmem)
      · exact hvalue

theorem parse_putLine {key value : Bytes} (hkey : IsWord key) (hne : value ≠ [])
    (hvalue : newline ∉ value) :
  parse (putLine (key, value)) = .write (.put key value)
  := by
  have hcommand : readWord (putLine (key, value)) = (chars "PUT", 32 :: (key ++ 32 :: value)) :=
    readWord_append ⟨by decide, by decide +kernel⟩ (by simp [isSpace])
  have hrest : readWord (32 :: (key ++ 32 :: value)) = (key, 32 :: value) := by
    rw [readWord_blank]
    exact readWord_append hkey (by simp [isSpace])
  rw [parse_eq_write, hcommand]
  dsimp only
  rw [hrest]
  dsimp only
  rw [readValue_blank hvalue]
  exact Or.inl ⟨rfl, hkey.1, hne, rfl⟩

theorem newline_notMem_putLine {key value : Bytes} (hkey : IsWord key) (hvalue : newline ∉ value) :
  newline ∉ putLine (key, value)
  := by
  have hnotKey : newline ∉ key := fun hmem => absurd (hkey.2 _ hmem) (by decide)
  rw [putLine, List.mem_append, List.mem_cons, List.mem_append, List.mem_cons]
  simp only [hnotKey, hvalue, or_false]
  decide

/-- All pairs of the map can be typed. -/
def Typable (m : OrderedMap Bytes Bytes) : Prop :=
  ∀ key value, m.find? key = some value → IsWord key ∧ value ≠ [] ∧ newline ∉ value

theorem Typable.answer {m : OrderedMap Bytes Bytes} (h : Typable m) (line : Bytes) :
  Typable (answer m (parse line)).2
  := by
  cases hparse : parse line with
  | write op =>
      intro key value hfind
      rw [find?_answer_write, Op.apply] at hfind
      split_ifs at hfind with hkey
      · obtain ⟨-, hne, hvalue, rfl⟩ | ⟨-, hne, rfl⟩ := parse_eq_write.mp hparse
        · obtain rfl := Option.some.inj hfind
          subst hkey
          exact ⟨isWord_readWord hne, hvalue, notMem_readValue⟩
        · simp [Op.value] at hfind
      · exact h key value hfind
  | _ => exact h

theorem Typable.transcript {m : OrderedMap Bytes Bytes} (h : Typable m) (lines : List Bytes) :
  Typable (transcript m lines).2
  := by
  induction lines generalizing m with
  | nil => exact h
  | cons line lines ih =>
      rw [Repl.transcript]
      split_ifs
      · exact h.answer line
      · exact ih (h.answer line)

theorem transcript_putLines {es : List (Bytes × Bytes)}
    (hes : ∀ e ∈ es, IsWord e.1 ∧ e.2 ≠ [] ∧ newline ∉ e.2) (m : OrderedMap Bytes Bytes) :
  (transcript m (es.map putLine)).2 = m.overwrite es
  := by
  induction es generalizing m with
  | nil => rfl
  | cons e es ih =>
      obtain ⟨⟨hkey, hne, hvalue⟩, hes⟩ := List.forall_mem_cons.mp hes
      have hparse := parse_putLine hkey hne hvalue
      have hne' : parse (putLine e) ≠ .leave := by simp [hparse]
      have hcons := congrArg Prod.snd (follow_cons [] m (es.map putLine) hne')
      rw [hparse] at hcons
      rw [List.map_cons, OrderedMap.overwrite_cons]
      exact hcons.trans (ih hes _)

/-- The maps that the input of a session on an empty database can leave are those whose keys are words
and whose values are lines that are not empty. -/
theorem repl_leaves_iff {m : OrderedMap Bytes Bytes} :
  (∃ input, (transcript OrderedMap.empty (Lines.lines newline input)).2 = m)
    ↔ ∀ key value, m.find? key = some value → IsWord key ∧ value ≠ [] ∧ newline ∉ value
  := by
  constructor
  · rintro ⟨input, rfl⟩
    have hempty : Typable OrderedMap.empty := by simp [Typable]
    exact hempty.transcript _
  · intro h
    have hes : ∀ e ∈ m.entries, IsWord e.1 ∧ e.2 ≠ [] ∧ newline ∉ e.2 :=
      fun e he => h e.1 e.2 (OrderedMap.mem_entries.mp he)
    use (m.entries.map putLine).flatMap (fun line => line ++ [newline])
    have hlines : ∀ line ∈ m.entries.map putLine, newline ∉ line := by
      intro line hline
      obtain ⟨e, he, rfl⟩ := List.mem_map.mp hline
      exact newline_notMem_putLine (hes e he).1 (hes e he).2.2
    rw [Lines.lines_flatMap hlines, transcript_putLines hes]
    apply OrderedMap.ext_find?
    intro key
    rw [OrderedMap.find?_overwrite _ m.sorted, OrderedMap.find?_empty, Option.or_none]
    rfl

end Repl

end TinyLsm
