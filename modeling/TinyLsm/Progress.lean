import TinyLsm.Linearizability
import Mathlib.Algebra.BigOperators.Group.Finset.Basic
import Mathlib.Algebra.Order.BigOperators.Group.Finset
import Mathlib.Algebra.Order.Ring.Nat
import Mathlib.Data.Prod.Lex

/-!
# Progress

Every call is answered.  Without new calls the clients and the compaction thread take only finitely
many steps, in whatever order they move and however short the writes are (`Clients.measure_lt`), and
they come to rest only when no call is pending and no compaction is requested
(`calls_answered`); so nobody waits for ever for a mutex, and no schedule keeps a call from
its answer.
-/

namespace TinyLsm

open Linearization SharedMutex Transition FileSystem

/-! ### What is left of a call -/

theorem toLex_lt_of_fst {α β : Type*} [LT α] [LT β] {a a' : α} (b b' : β) (h : a < a') :
  toLex (a, b) < toLex (a', b')
  := Prod.Lex.toLex_lt_toLex.mpr (Or.inl h)

theorem toLex_lt_of_snd {α β : Type*} [LT α] [LT β] (a : α) {b b' : β} (h : b < b') :
  toLex (a, b) < toLex (a, b')
  := Prod.Lex.toLex_lt_toLex.mpr (Or.inr ⟨rfl, h⟩)

/-- What `WriteSSTable` still has to do. -/
def FileWrite.left : FileWrite → ℕ ×ₗ ℕ
  | synced => toLex (0, 0)
  | writing rest => toLex (1, rest.length)
  | creating _ => toLex (2, 0)

def Writer.left : Writer → ℕ ×ₗ ℕ ×ₗ ℕ
  | idle => toLex (0, toLex (0, 0))
  | resetting _ => toLex (1, toLex (0, 0))
  | flushing _ file => toLex (2, file.left)
  | applying _ => toLex (3, toLex (0, 0))
  | appending _ rest => toLex (4, toLex (0, rest.length))

def Compactor.left : Compactor → ℕ ×ₗ ℕ ×ₗ ℕ
  | waiting => toLex (0, toLex (0, 0))
  | finishing => toLex (1, toLex (0, 0))
  | deleting old => toLex (2, toLex (0, old.length))
  | swapping _ _ => toLex (3, toLex (0, 0))
  | writing _ _ _ file => toLex (4, file.left)
  | allocating _ _ => toLex (5, toLex (0, 0))
  | merging _ => toLex (6, toLex (0, 0))
  | started => toLex (7, toLex (0, 0))

theorem FileWrite.Step.left_lt {file file' : FileWrite} {n : ℕ} {c : DbSyscall}
    (h : file.Step n c file') :
  file'.left < file.left
  := by
  cases h with
  | create hw => exact toLex_lt_of_fst _ _ (by decide)
  | @append written rest hne =>
      apply toLex_lt_of_snd
      have hpos := List.length_pos_iff.mpr hne
      simpa using hpos
  | sync => exact toLex_lt_of_fst _ _ (by decide)

namespace Process

variable {p q : Process} {disk : DbDisk} {c : Option DbSyscall} {ended : List Call}

theorem WriterStep.left_lt (h : p.WriterStep disk c (.running q) ended) :
  q.writer.left < p.writer.left
  := by
  cases h with
  | @append op written rest hw hne =>
      rw [hw]
      apply toLex_lt_of_snd
      apply toLex_lt_of_snd
      have hpos := List.length_pos_iff.mpr hne
      simpa using hpos
  | write hw hfile =>
      rw [hw]
      exact toLex_lt_of_snd _ hfile.left_lt
  | sync hw =>
      rw [hw]
      exact toLex_lt_of_fst _ _ (by decide)
  | apply hw hflush =>
      rw [hw]
      exact toLex_lt_of_fst _ _ (by decide)
  | startFlush hw hflush =>
      rw [hw]
      exact toLex_lt_of_fst _ _ (by decide)
  | rename hw hopen =>
      rw [hw]
      exact toLex_lt_of_fst _ _ (by decide)
  | reject hw hopen =>
      rw [hw]
      exact toLex_lt_of_fst _ _ (by decide)
  | reset hw =>
      rw [hw]
      exact toLex_lt_of_fst _ _ (by decide)

theorem WriterFail.left_lt (h : p.WriterFail c (.running q) ended) :
  q.writer.left < p.writer.left
  := by
  cases h with
  | append hw hc =>
      rw [hw]
      exact toLex_lt_of_fst _ _ (by decide)
  | flush hw hc =>
      rw [hw]
      exact toLex_lt_of_fst _ _ (by decide)
  | reset hw hc =>
      rw [hw]
      exact toLex_lt_of_fst _ _ (by decide)

/-- What the compaction thread still has to do, with the request it is yet to consume. -/
def compactionLeft (p : Process) : ℕ ×ₗ ℕ ×ₗ ℕ ×ₗ ℕ :=
  toLex (p.db.compactionRequested.toNat, p.compactor.left)

theorem CompactorStep.left_lt (h : p.CompactorStep disk c (.running q) ended) :
  q.compactionLeft < p.compactionLeft
  := by
  cases h with
  | consume hc hreq =>
      apply toLex_lt_of_fst
      simp [hreq]
  | write hc hfile =>
      apply toLex_lt_of_snd
      rw [hc]
      exact toLex_lt_of_snd _ hfile.left_lt
  | unlink hc =>
      apply toLex_lt_of_snd
      rw [hc]
      apply toLex_lt_of_snd
      apply toLex_lt_of_snd
      simp
  | skip hc hw hlen =>
      apply toLex_lt_of_snd
      rw [hc]
      exact toLex_lt_of_fst _ _ (by decide)
  | snapshot hc hw hlen =>
      apply toLex_lt_of_snd
      rw [hc]
      exact toLex_lt_of_fst _ _ (by decide)
  | merge hc hmerge =>
      apply toLex_lt_of_snd
      rw [hc]
      exact toLex_lt_of_fst _ _ (by decide)
  | allocate hc hw =>
      apply toLex_lt_of_snd
      rw [hc]
      exact toLex_lt_of_fst _ _ (by decide)
  | rename hc hopen =>
      apply toLex_lt_of_snd
      rw [hc]
      exact toLex_lt_of_fst _ _ (by decide)
  | swap hc hw =>
      apply toLex_lt_of_snd
      rw [hc]
      exact toLex_lt_of_fst _ _ (by decide)
  | deleted hc =>
      apply toLex_lt_of_snd
      rw [hc]
      exact toLex_lt_of_fst _ _ (by decide)
  | finish hc =>
      apply toLex_lt_of_snd
      rw [hc]
      exact toLex_lt_of_fst _ _ (by decide)

theorem CompactorFail.left_lt (h : p.CompactorFail c (.running q) ended) :
  q.compactionLeft < p.compactionLeft
  := by
  cases h with
  | unlink hc =>
      apply toLex_lt_of_snd
      rw [hc]
      apply toLex_lt_of_snd
      apply toLex_lt_of_snd
      simp

end Process

/-! ### What is left of all calls -/

namespace Client

/-- The client is yet to begin its write. -/
def writesLeft : Client → ℕ
  | locking (.write _) => 1
  | _ => 0

/-- The steps of a read with so many tables that are left. -/
def readLeft (tables : ℕ) : Read → ℕ
  | .finding _ => tables + 2
  | .searching _ remaining => remaining + 1
  | .merging _ _ next _ => tables + 1 - next

/-- What a client has left besides its write. -/
def left (tables : ℕ) : Client → ℕ
  | idle => 0
  | returning _ => 1
  | unlocking _ _ => 2
  | writing => 3
  | reading read => readLeft tables read + 3
  | locking _ => tables + 6

theorem readLeft_lt {db : Database} {read read' : Read} (h : read.move db = some (.inl read')) :
  readLeft db.sstables.length read' < readLeft db.sstables.length read
  := by
  cases read with
  | finding key =>
      simp only [Read.move] at h
      split at h
      · simp at h
      · simp only [Option.some.injEq, Sum.inl.injEq] at h
        subst h
        simp [readLeft]
  | searching key n =>
      cases n with
      | zero => simp [Read.move] at h
      | succ n =>
          simp only [Read.move] at h
          split at h
          · simp at h
          · split at h
            · simp at h
            · simp at h
            · simp only [Option.some.injEq, Sum.inl.injEq] at h
              subst h
              simp [readLeft]
  | merging start stop next merged =>
      simp only [Read.move] at h
      cases hr : db.sstables[next]? with
      | none => simp [hr] at h
      | some r =>
          obtain ⟨hlt, -⟩ := List.getElem?_eq_some_iff.mp hr
          simp only [hr] at h
          split at h
          · simp at h
          · simp only [Option.some.injEq, Sum.inl.injEq] at h
            subst h
            simp only [readLeft]
            omega

end Client

/-- One summand less. -/
theorem sum_update_lt {ι α : Type*} [Fintype ι] [DecidableEq ι] (g : α → ℕ) (f : ι → α) {t : ι}
    {x : α} (h : g x < g (f t)) :
  ∑ u, g (Function.update f t x u) < ∑ u, g (f u)
  := by
  apply Finset.sum_lt_sum
  · intro u _
    by_cases hu : u = t
    · rw [hu, Function.update_self]
      exact h.le
    · rw [Function.update_of_ne hu]
  · exact ⟨t, Finset.mem_univ t, by rw [Function.update_self]; exact h⟩

theorem sum_update_eq {ι α : Type*} [Fintype ι] [DecidableEq ι] (g : α → ℕ) (f : ι → α) {t : ι}
    {x : α} (h : g x = g (f t)) :
  ∑ u, g (Function.update f t x u) = ∑ u, g (f u)
  := by
  apply Finset.sum_congr rfl
  intro u _
  by_cases hu : u = t
  · rw [hu, Function.update_self, h]
  · rw [Function.update_of_ne hu]

namespace Clients

variable {ι : Type*} [DecidableEq ι]

/-- The compaction thread is yet to take the mutex, or yet to give it back. -/
def sectionLeft (c : Clients ι) (p : Process) : ℕ :=
  if p.compactor.mode = .free then
    if c.mutex.mode none = .free then 0 else 1
  else if c.mutex.mode none = .free then 1 else 0

variable [Fintype ι]

/-- What all have left: the writes that are yet to begin, the write in progress, the compaction, the
critical section of the compaction thread, and the rest of the clients. -/
def measure (c : Clients ι) (p : Process) :
    ℕ ×ₗ (ℕ ×ₗ ℕ ×ₗ ℕ) ×ₗ (ℕ ×ₗ ℕ ×ₗ ℕ ×ₗ ℕ) ×ₗ ℕ ×ₗ ℕ :=
  toLex (∑ t, (c.threads t).writesLeft,
    toLex (p.writer.left,
      toLex (p.compactionLeft,
        toLex (c.sectionLeft p, ∑ t, (c.threads t).left p.db.sstables.length))))

variable {c c' : Clients ι} {p q : Process} {t : ι}

/-- A client moves on. -/
theorem measure_lt_of_client {client : Client} {mutex : SharedMutex (Option ι)}
    {history : List (Event ι Request Answer)}
    (hwrites : client.writesLeft = (c.threads t).writesLeft)
    (hmode : mutex.mode none = c.mutex.mode none)
    (hleft : client.left p.db.sstables.length < (c.threads t).left p.db.sstables.length) :
  measure ⟨c.state, mutex, Function.update c.threads t client, history⟩ p < c.measure p
  := by
  simp only [measure, sectionLeft, hmode]
  rw [sum_update_eq Client.writesLeft c.threads hwrites]
  apply toLex_lt_of_snd
  apply toLex_lt_of_snd
  apply toLex_lt_of_snd
  apply toLex_lt_of_snd
  exact sum_update_lt (Client.left p.db.sstables.length) c.threads hleft

/-- The write in progress moves on, whether its call ends or not. -/
theorem measure_written {s : State} (ht : c.threads t = .writing)
    (hleft : q.writer.left < p.writer.left) :
  (c.written t s).measure q < c.measure p
  := by
  have hwrites : ∑ u, ((c.written t s).threads u).writesLeft
      = ∑ u, (c.threads u).writesLeft := by
    rw [written]
    split
    · rfl
    · exact sum_update_eq Client.writesLeft c.threads (by rw [ht]; rfl)
  simp only [measure, hwrites]
  exact toLex_lt_of_snd _ (toLex_lt_of_fst _ _ hleft)

/-- The compaction thread moves on. -/
theorem measure_compacted {s : State} (hwriter : q.writer = p.writer)
    (hleft : q.compactionLeft < p.compactionLeft) :
  measure { c with state := s } q < c.measure p
  := by
  simp only [measure, hwriter]
  exact toLex_lt_of_snd _ (toLex_lt_of_snd _ (toLex_lt_of_fst _ _ hleft))

/-- The compaction thread takes the mutex for a critical section, or gives it back after one. -/
theorem measure_section {mutex : SharedMutex (Option ι)}
    (hleft : sectionLeft { c with mutex := mutex } p < c.sectionLeft p) :
  measure { c with mutex := mutex } p < c.measure p
  := toLex_lt_of_snd _ (toLex_lt_of_snd _ (toLex_lt_of_snd _ (toLex_lt_of_fst _ _ hleft)))

end Clients

/-- The action begins a call. -/
def ClientAction.begins {ι : Type*} : ClientAction ι → Bool
  | invoke _ _ => true
  | _ => false

namespace Clients

variable {ι : Type*} [DecidableEq ι] [Fintype ι] {c c' : Clients ι} {p q : Process} {t : ι}

theorem lock_measure_lt (hp : c.state.status = .running p) (hstep : c.move p (.lock t) = some c')
    (hq : c'.state.status = .running q) :
  c'.measure q < c.measure p
  := by
  simp only [move] at hstep
  cases ht : c.threads t with
  | locking request =>
      simp only [ht] at hstep
      obtain ⟨mutex, hacquire, hlocked⟩ := Option.bind_eq_some_iff.mp hstep
      have hmode : mutex.mode none = c.mutex.mode none := by
        rw [(SharedMutex.mode_acquire hacquire).1, Function.update_of_ne (by simp)]
      cases request with
      | write op =>
          simp only [locked] at hlocked
          obtain ⟨s, -, rfl⟩ := Option.map_eq_some_iff.mp hlocked
          apply toLex_lt_of_fst
          apply sum_update_lt
          rw [ht]
          exact Nat.zero_lt_one
      | get key =>
          obtain rfl := Option.some.inj hlocked
          obtain rfl := Status.running.inj (hp.symm.trans hq)
          apply measure_lt_of_client
          · rw [ht]
            rfl
          · exact hmode
          · simp [ht, Client.left, Client.readLeft]
      | scan start stop =>
          obtain rfl := Option.some.inj hlocked
          obtain rfl := Status.running.inj (hp.symm.trans hq)
          apply measure_lt_of_client
          · rw [ht]
            rfl
          · exact hmode
          · simp [ht, Client.left, Client.readLeft]
  | _ => simp [ht] at hstep

/-- Every step but the beginning of a call leaves less to do. -/
theorem measure_lt {a : ClientAction ι} (ha : a.begins = false) (hp : c.state.status = .running p)
    (hstep : c.step a = some c') (hq : c'.state.status = .running q) :
  c'.measure q < c.measure p
  := by
  rw [step_eq_move hp] at hstep
  cases a with
  | invoke t request => simp [ClientAction.begins] at ha
  | lock t => exact lock_measure_lt hp hstep hq
  | read t =>
      simp only [move] at hstep
      cases ht : c.threads t with
      | reading read =>
          simp only [ht] at hstep
          obtain ⟨x, hx, rfl⟩ := Option.map_eq_some_iff.mp hstep
          cases x with
          | inl read' =>
              obtain rfl := Status.running.inj (hp.symm.trans hq)
              apply measure_lt_of_client
              · rw [ht]
                rfl
              · rfl
              · rw [ht]
                exact Nat.add_lt_add_right (Client.readLeft_lt hx) 3
          | inr answer =>
              obtain rfl := Status.running.inj (hp.symm.trans hq)
              apply measure_lt_of_client
              · rw [ht]
                rfl
              · rfl
              · rw [ht]
                simp only [Client.left]
                omega
      | _ => simp [ht] at hstep
  | write t count =>
      simp only [move] at hstep
      cases ht : c.threads t with
      | writing =>
          simp only [ht] at hstep
          obtain ⟨s, hs, rfl⟩ := Option.map_eq_some_iff.mp hstep
          rw [state_written] at hq
          obtain ⟨_, ended, hmove, -, -⟩ := step_any_cases hs
          rw [hp, hq] at hmove
          cases hmove with
          | succeeds hmove =>
              cases hmove with
              | writer hwriter => exact measure_written ht hwriter.left_lt
      | _ => simp [ht] at hstep
  | writeFail t late =>
      simp only [move] at hstep
      cases ht : c.threads t with
      | writing =>
          simp only [ht] at hstep
          obtain ⟨s, hs, rfl⟩ := Option.map_eq_some_iff.mp hstep
          rw [state_written] at hq
          obtain ⟨_, ended, hmove, -, -⟩ := step_any_cases hs
          rw [hp, hq] at hmove
          cases hmove with
          | succeeds hmove => cases hmove
          | writerFail hfail => exact measure_written ht hfail.left_lt
      | _ => simp [ht] at hstep
  | unlock t =>
      simp only [move] at hstep
      cases ht : c.threads t with
      | unlocking mode answer =>
          simp only [ht] at hstep
          obtain ⟨mutex, hrelease, rfl⟩ := Option.map_eq_some_iff.mp hstep
          obtain rfl := Status.running.inj (hp.symm.trans hq)
          apply measure_lt_of_client
          · rw [ht]
            rfl
          · rw [(SharedMutex.mode_release hrelease).1, Function.update_of_ne (by simp)]
          · rw [ht]
            exact Nat.one_lt_two
      | _ => simp [ht] at hstep
  | respond t =>
      simp only [move] at hstep
      cases ht : c.threads t with
      | returning answer =>
          simp only [ht, Option.some.injEq] at hstep
          subst hstep
          obtain rfl := Status.running.inj (hp.symm.trans hq)
          apply measure_lt_of_client
          · rw [ht]
            rfl
          · rfl
          · rw [ht]
            exact Nat.zero_lt_one
      | _ => simp [ht] at hstep
  | lockCompactor =>
      obtain ⟨mutex, hacquire, rfl⟩ := Option.map_eq_some_iff.mp hstep
      obtain ⟨hmutex, hne, hfree, -⟩ := SharedMutex.mode_acquire hacquire
      obtain rfl := Status.running.inj (hp.symm.trans hq)
      apply measure_section
      simp [sectionLeft, hmutex, hne, hfree]
  | compactor count =>
      simp only [move] at hstep
      split_ifs at hstep with hheld
      obtain ⟨s, hs, rfl⟩ := Option.map_eq_some_iff.mp hstep
      obtain ⟨_, ended, hmove, -, -⟩ := step_any_cases hs
      rw [hp, hq] at hmove
      cases hmove with
      | succeeds hmove =>
          cases hmove with
          | compactor hcompactor =>
              exact measure_compacted hcompactor.sparesClients.writer hcompactor.left_lt
  | compactorFail late =>
      simp only [move] at hstep
      split_ifs at hstep with hheld
      obtain ⟨s, hs, rfl⟩ := Option.map_eq_some_iff.mp hstep
      obtain ⟨_, ended, hmove, -, -⟩ := step_any_cases hs
      rw [hp, hq] at hmove
      cases hmove with
      | succeeds hmove => cases hmove
      | compactorFail hfail => exact measure_compacted hfail.sparesClients.writer hfail.left_lt
  | unlockCompactor =>
      simp only [move] at hstep
      split_ifs at hstep with hfree
      obtain ⟨mutex, hrelease, rfl⟩ := Option.map_eq_some_iff.mp hstep
      obtain ⟨hmutex, -⟩ := SharedMutex.mode_release hrelease
      obtain rfl := Status.running.inj (hp.symm.trans hq)
      have hheld : c.mutex.mode none ≠ .free := by
        intro hnone
        simp [hnone, SharedMutex.release] at hrelease
      apply measure_section
      simp [sectionLeft, hmutex, hfree, hheld]
  | kill =>
      obtain ⟨s, hs, rfl⟩ := Option.map_eq_some_iff.mp hstep
      obtain ⟨_, ended, hmove, -⟩ := step_any_cases hs
      rw [hp, hq] at hmove
      cases hmove with
      | succeeds hmove => cases hmove

end Clients

/-! ### Coming to rest -/

namespace FileWrite

/-- The entries of the table are too large for a file. -/
def TooLarge (file : FileWrite) : Prop :=
  ∃ entries e, file = .creating entries ∧ writeSSTable entries = .error e

theorem exists_move {file : FileWrite} (h : ¬ file.TooLarge) (n : ℕ) :
  ∃ count, (file.move n count).isSome
  := by
  cases file with
  | creating entries =>
      use 0
      cases hw : writeSSTable entries with
      | error e => exact absurd ⟨entries, e, rfl, hw⟩ h
      | ok contents => simp [move, hw]
  | writing rest =>
      cases rest with
      | nil => exact ⟨0, rfl⟩
      | cons b bs => exact ⟨1, by simp [move]⟩
  | synced => exact ⟨0, rfl⟩

end FileWrite

namespace Process

/-- A flush or a compaction is about to write a table that is too large for a file. -/
def TooLarge (p : Process) : Prop :=
  (∃ op file, p.writer = .flushing op file ∧ file.TooLarge)
    ∨ ∃ toCompact merged n file, p.compactor = .writing toCompact merged n file ∧ file.TooLarge

variable {p : Process}

/-- A call in progress can move on. -/
theorem exists_writerMove (h : p.writer ≠ .idle) (hfits : ¬ p.TooLarge) :
  ∃ count, (p.writerMove count).isSome
  := by
  cases hw : p.writer with
  | idle => exact absurd hw h
  | appending op rest =>
      cases rest with
      | nil => exact ⟨0, by simp [writerMove, hw]⟩
      | cons b bs => exact ⟨1, by simp [writerMove, hw]⟩
  | applying op => exact ⟨0, by simp [writerMove, hw]⟩
  | flushing op file =>
      have hfile : ¬ file.TooLarge := fun hlarge => hfits (Or.inl ⟨op, file, hw, hlarge⟩)
      obtain ⟨count, hmove⟩ := FileWrite.exists_move hfile p.db.nextSstableNumber
      obtain ⟨⟨c, next⟩, hmove⟩ := Option.isSome_iff_exists.mp hmove
      use count
      cases next with
      | none => simp [writerMove, hw, hmove]
      | some file' => simp [writerMove, hw, hmove]
  | resetting op => exact ⟨0, by simp [writerMove, hw]⟩

/-- The compaction thread can move on, unless it waits for a request or for the end of a call. -/
theorem exists_compactorMove (hlock : p.compactor.mode = .free ∨ p.writer = .idle)
    (hbusy : p.compactor = .waiting → p.db.compactionRequested = true) (hfits : ¬ p.TooLarge) :
  ∃ count, (p.compactorMove count).isSome
  := by
  cases hc : p.compactor with
  | waiting => exact ⟨0, by simp [compactorMove, hc, hbusy hc]⟩
  | started =>
      have hidle := hlock.resolve_left (by rw [hc]; simp [Compactor.mode])
      use 0
      by_cases hlen : p.db.sstables.length < 2
      · simp [compactorMove, hc, unlocked_iff.mpr hidle, hlen]
      · simp [compactorMove, hc, unlocked_iff.mpr hidle, hlen]
  | merging toCompact =>
      use 0
      cases hm : Database.compactedEntries toCompact with
      | error e => simp [compactorMove, hc, hm]
      | ok merged => simp [compactorMove, hc, hm]
  | allocating toCompact merged =>
      have hidle := hlock.resolve_left (by rw [hc]; simp [Compactor.mode])
      exact ⟨0, by simp [compactorMove, hc, unlocked_iff.mpr hidle]⟩
  | writing toCompact merged n file =>
      have hfile : ¬ file.TooLarge := fun hlarge =>
        hfits (Or.inr ⟨toCompact, merged, n, file, hc, hlarge⟩)
      obtain ⟨count, hmove⟩ := FileWrite.exists_move hfile n
      obtain ⟨⟨c, next⟩, hmove⟩ := Option.isSome_iff_exists.mp hmove
      use count
      cases next with
      | none => simp [compactorMove, hc, hmove]
      | some file' => simp [compactorMove, hc, hmove]
  | swapping toCompact compacted =>
      have hidle := hlock.resolve_left (by rw [hc]; simp [Compactor.mode])
      exact ⟨0, by simp [compactorMove, hc, unlocked_iff.mpr hidle]⟩
  | deleting old =>
      cases old with
      | nil => exact ⟨0, by simp [compactorMove, hc]⟩
      | cons r old => exact ⟨0, by simp [compactorMove, hc]⟩
  | finishing => exact ⟨0, by simp [compactorMove, hc]⟩

end Process

/-- An action of a thread that goes on with what it has begun, without a failing call. -/
def ClientAction.advances {ι : Type*} : ClientAction ι → Bool
  | invoke _ _ => false
  | writeFail _ _ => false
  | compactorFail _ => false
  | kill => false
  | _ => true

namespace Clients

variable {ι : Type*} [DecidableEq ι] {c : Clients ι} {p : Process} {m : Bytes → Option Bytes}
  {phase : ι → Phase Request Answer} {t : ι}

/-- No call is pending, nobody holds the mutex, and no compaction is requested or goes on. -/
structure Quiet (c : Clients ι) (p : Process) : Prop where
  clients : ∀ t, c.threads t = .idle
  mutex : ∀ u, c.mutex.mode u = .free
  writer : p.writer = .idle
  compactor : p.compactor = .waiting
  request : p.db.compactionRequested = false

/-- No thread can go on. -/
def Stuck (c : Clients ι) : Prop :=
  ∀ a : ClientAction ι, a.advances = true → c.step a = none

/-- A client that holds the mutex can go on. -/
theorem Coherent.free_of_stuck (h : c.Coherent p m phase) (hp : c.state.status = .running p)
    (hstuck : c.Stuck) (hfits : ¬ p.TooLarge) (t : ι) :
  (c.threads t).mode = .free
  := by
  have hfollows := h.follows t
  cases ht : c.threads t with
  | reading read =>
      rw [ht] at hfollows
      obtain ⟨x, hx⟩ := hfollows.2.exists_move
      have hnone := hstuck (.read t) rfl
      simp only [step_eq_move hp, move, ht, hx, Option.map_some] at hnone
      simp at hnone
  | writing =>
      rw [ht] at hfollows
      obtain ⟨op, hop, -⟩ := hfollows
      have hbusy : p.writer ≠ .idle := by
        intro hidle
        simp [hidle, Writer.operation] at hop
      obtain ⟨count, hmove⟩ := Process.exists_writerMove hbusy hfits
      obtain ⟨move, hmove⟩ := Option.isSome_iff_exists.mp hmove
      have hnone := hstuck (.write t count) rfl
      simp only [step_eq_move hp, Clients.move, ht, TinyLsm.step, hp, Status.move, hmove,
        Option.map_some] at hnone
      simp at hnone
  | unlocking mode answer =>
      rw [ht] at hfollows
      obtain ⟨mutex, hrelease⟩ := SharedMutex.exists_release
        (show c.mutex.mode (some t) = mode by rw [h.held, ht]; rfl) hfollows.2
      have hnone := hstuck (.unlock t) rfl
      simp only [step_eq_move hp, move, ht, hrelease, Option.map_some] at hnone
      simp at hnone
  | _ => rfl

/-- When no thread can go on, no call is pending and no compaction goes on. -/
theorem Coherent.quiet_of_stuck (h : c.Coherent p m phase) (hp : c.state.status = .running p)
    (hstuck : c.Stuck) (hfits : ¬ p.TooLarge) :
  c.Quiet p
  := by
  have hclients := h.free_of_stuck hp hstuck hfits
  have hidle : p.writer = .idle := h.idle (fun t => by simp [hclients t])
  -- The compaction thread cannot be inside a critical section either.
  have hcompactor : ∀ count, c.mutex.mode none = p.compactor.mode →
      p.compactorMove count = none := by
    intro count hheld
    have hnone := hstuck (.compactor count) rfl
    simp only [step_eq_move hp, move, if_pos hheld, TinyLsm.step, hp, Status.move,
      Option.map_eq_none_iff] at hnone
    exact hnone
  have hwaits : c.mutex.mode none = p.compactor.mode →
      p.compactor = .waiting ∧ p.db.compactionRequested = false := by
    intro hheld
    by_contra hbusy
    obtain ⟨count, hmove⟩ := Process.exists_compactorMove (Or.inr hidle) (by
      intro hc
      by_contra hreq
      exact hbusy ⟨hc, by simpa using hreq⟩) hfits
    rw [hcompactor count hheld] at hmove
    simp at hmove
  have hfree : c.mutex.mode none = .free := by
    by_contra hheld
    obtain hmode | hmode | hmode := h.critical
    · exact hheld hmode
    · obtain ⟨mutex, hrelease⟩ := SharedMutex.exists_release rfl hheld
      have hnone := hstuck .unlockCompactor rfl
      simp [step_eq_move hp, move, hmode, hrelease] at hnone
    · obtain ⟨hc, -⟩ := hwaits hmode
      rw [hmode, hc] at hheld
      exact hheld rfl
  have hmutex : ∀ u, c.mutex.mode u = .free := by
    intro u
    cases u with
    | none => exact hfree
    | some t => rw [h.held, hclients]
  have hmode : p.compactor.mode = .free := by
    by_contra hmode
    obtain ⟨mutex, hacquire⟩ := SharedMutex.exists_acquire (t := none) hmutex hmode
    have hnone := hstuck .lockCompactor rfl
    simp [step_eq_move hp, move, hacquire] at hnone
  obtain ⟨hc, hreq⟩ := hwaits (hfree.trans hmode.symm)
  refine ⟨?_, hmutex, hidle, hc, hreq⟩
  intro t
  have hthread := hclients t
  cases ht : c.threads t with
  | idle => rfl
  | locking request =>
      obtain ⟨mutex, hacquire⟩ := SharedMutex.exists_acquire (t := some t) hmutex
        (show request.mode ≠ .free by cases request <;> simp [Request.mode])
      have hnone := hstuck (.lock t) rfl
      cases request with
      | write op =>
          simp [step_eq_move hp, move, ht, hacquire, locked, TinyLsm.step, hp, Status.move, hidle]
            at hnone
      | get key => simp [step_eq_move hp, move, ht, hacquire, locked] at hnone
      | scan start stop => simp [step_eq_move hp, move, ht, hacquire, locked] at hnone
  | reading read => simp [ht, Client.mode] at hthread
  | writing => simp [ht, Client.mode] at hthread
  | unlocking mode answer =>
      have hfollows := h.follows t
      rw [ht] at hthread hfollows
      exact absurd hthread hfollows.2
  | returning answer =>
      have hnone := hstuck (.respond t) rfl
      simp [step_eq_move hp, move, ht] at hnone

end Clients

/-- In no schedule is a call left without its answer: as long as no new call begins, the clients and
the compaction thread take only finitely many steps, and where none of them can take another, all
calls are answered, the mutex is free and no compaction is left to do.  The one exception is a table
that is too large for a file. -/
theorem calls_answered {ι : Type*} [DecidableEq ι] [Fintype ι] {s : State} {p : Process}
    {c : Clients ι} (hs : Reaches step (fun _ a _ => a.InRange) State.init s)
    (hp : s.status = .running p) (hidle : p.writer = .idle)
    (hc : Reaches Clients.step (fun _ a _ => a.InRange) (Clients.init s) c) :
  (∀ (states : ℕ → Clients ι) (actions : ℕ → ClientAction ι), states 0 = c →
      (∀ n, (states n).step (actions n) = some (states (n + 1))) → ∃ n, (actions n).begins)
    ∧ ∀ q, c.state.status = .running q → c.Stuck → q.TooLarge ∨ c.Quiet q
  := by
  constructor
  · intro states actions _ hstep
    by_contra hbegins
    push Not at hbegins
    have hrunning : ∀ n, ∃ q, (states n).state.status = .running q := by
      intro n
      have hn := hstep n
      rw [Clients.step] at hn
      split at hn
      · exact ⟨_, ‹_›⟩
      · simp at hn
    choose q hq using hrunning
    obtain ⟨n, hn⟩ := WellFounded.not_rel_apply_succ (r := (· < ·))
      (fun n => (states n).measure (q n))
    apply hn
    exact Clients.measure_lt (by simpa using hbegins n) (hq n) (hstep n) (hq (n + 1))
  · intro q hq hstuck
    by_cases hlarge : q.TooLarge
    · exact Or.inl hlarge
    · obtain ⟨m, phase, -, hcoherent⟩ := Clients.linear_of_reaches hs hp hidle hc
      exact Or.inr ((hcoherent q hq).quiet_of_stuck hq hstuck hlarge)

theorem calls_answered_overlapping :
  ∃ s p c, run (guarded step (fun _ a => decide a.InRange)) State.init (launchActions 0 2) = some s
    ∧ s.status = .running p
    ∧ run (guarded Clients.step (fun _ a => decide a.InRange)) (Clients.init s) overlappingCalls
      = some c
    ∧ ∀ q, c.state.status = .running q → c.Stuck → q.TooLarge ∨ c.Quiet q
  := by
  have hrun : (run (guarded step (fun _ a => decide a.InRange)) State.init (launchActions 0 2)).any
      (fun s => s.isIdle
        && (run (guarded Clients.step (fun _ a => decide a.InRange)) (Clients.init s)
          overlappingCalls).isSome) = true := by
    decide +kernel
  obtain ⟨s, hs, htest⟩ := exists_of_run hrun
  obtain ⟨hidle, hclients⟩ := Bool.and_eq_true_iff.mp htest
  obtain ⟨p, hp, hw⟩ := State.isIdle_iff.mp hidle
  obtain ⟨c, hc⟩ := Option.isSome_iff_exists.mp hclients
  have hreach := Reaches.of_run hs (fun _ _ _ ha => of_decide_eq_true ha)
  have hcalls := Reaches.of_run hc (fun _ _ _ ha => of_decide_eq_true ha)
  exact ⟨s, p, c, hs, hp, hc, (calls_answered hreach hp hw hcalls).2⟩

end TinyLsm
