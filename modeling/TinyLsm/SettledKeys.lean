import TinyLsm.Refinement
import TinyLsm.Reopen

/-!
# Keys that are settled

A store whose keys are settled by their first write: a call may be repeated, but no call writes
something else to a key.  Its layers agree wherever two of them have an entry, whatever the order of
their numbers, so none of the ways in which a reopened directory can differ from the database that
left it is open: every run of such a store, with flushes, compactions, kills and restarts at any
point, keeps every write that has returned (`settled_writes_kept`).
-/

namespace TinyLsm

open FileSystem Layers Transition

/-! ### The operations begun -/

/-- The operation of the call in progress, and of all calls before. -/
def State.begun (s : State) : List Op :=
  s.calls.map Call.op ++
    match s.status with
    | .running p => p.writer.operation.toList
    | _ => []

/-- The operation an action begins. -/
def Action.begins : Action → List Op
  | .call op => [op]
  | _ => []

theorem Process.interrupted_eq (p : Process) :
  p.interrupted.map Call.op = p.writer.operation.toList
  := by
  cases hw : p.writer with
  | _ => simp [interrupted, hw, Writer.operation]

theorem Process.WriterStep.begun {p : Process} {disk : DbDisk} {c : Option DbSyscall}
    {status : Status} {ended : List Call} (h : p.WriterStep disk c status ended) :
  ∃ q, status = .running q
    ∧ ended.map Call.op ++ q.writer.operation.toList = p.writer.operation.toList
  := by
  cases h with
  | append hw hne => exact ⟨_, rfl, by simp [hw, Writer.operation]⟩
  | sync hw => exact ⟨_, rfl, by simp [hw, Writer.operation]⟩
  | apply hw hflush => exact ⟨_, rfl, by simp [hw, Writer.operation]⟩
  | startFlush hw hflush => exact ⟨_, rfl, by simp [hw, Writer.operation]⟩
  | write hw hfile => exact ⟨_, rfl, by simp [hw, Writer.operation]⟩
  | rename hw hopen => exact ⟨_, rfl, by simp [hw, Writer.operation]⟩
  | reject hw hopen => exact ⟨_, rfl, by simp [hw, Writer.operation]⟩
  | reset hw => exact ⟨_, rfl, by simp [hw, Writer.operation]⟩

theorem Process.CompactorStep.begun {p : Process} {disk : DbDisk} {c : Option DbSyscall}
    {status : Status} {ended : List Call} (h : p.CompactorStep disk c status ended) :
  (∃ q, status = .running q ∧ q.writer = p.writer ∧ ended = [])
    ∨ status = .down ∧ ended = p.interrupted
  := by
  cases h with
  | mergeFail hc hmerge => exact Or.inr ⟨rfl, rfl⟩
  | reject hc hopen => exact Or.inr ⟨rfl, rfl⟩
  | _ => exact Or.inl ⟨_, rfl, rfl, rfl⟩

/-- A step begins the operation of a call, and none is forgotten. -/
theorem begun_step {s t : State} {a : Action} (hstep : step s a = some t) (ha : a.noFailure) :
  t.begun = s.begun ++ a.begins
  := by
  obtain ⟨disk, status, calls⟩ := s
  obtain ⟨c, ended, hstatus, -, hcalls⟩ := step_cases hstep ha
  obtain ⟨disk', status', calls'⟩ := t
  simp only at hstatus hcalls
  subst hcalls
  simp only [State.begun, List.map_append, List.append_assoc]
  cases hstatus with
  | start => simp [Action.begins]
  | restart => simp [Action.begins]
  | opener hopener =>
      cases hopener with
      | _ => simp [Action.begins, Writer.operation]
  | killOpener => simp [Action.begins]
  | call hw => simp [Action.begins, hw, Writer.operation]
  | writer hwriter =>
      obtain ⟨q, rfl, hbegun⟩ := hwriter.begun
      simp only [Action.begins, List.append_nil, hbegun]
  | compactor hcompactor =>
      obtain ⟨q, rfl, hwriter, rfl⟩ | ⟨rfl, rfl⟩ := hcompactor.begun
      · simp [Action.begins, hwriter]
      · simp [Action.begins, Process.interrupted_eq]
  | close hw hc => simp [Action.begins, hw, Writer.operation]
  | kill => simp [Action.begins, Process.interrupted_eq]

/-! ### Layers of operations -/

/-- Every entry of the layer is that of one of the operations. -/
def LayerOf (ops : List Op) (layer : Bytes → Option Entry) : Prop :=
  ∀ key entry, layer key = some entry → ∃ op ∈ ops, op.key = key ∧ op.entry = entry

/-- Operations on the same key are the same. -/
def Settled (ops : List Op) : Prop :=
  ∀ a ∈ ops, ∀ b ∈ ops, a.key = b.key → a = b

namespace LayerOf

variable {ops ops' : List Op} {layer layer' : Bytes → Option Entry}

theorem mono (h : LayerOf ops layer) (hsub : ∀ op ∈ ops, op ∈ ops') :
  LayerOf ops' layer
  := by
  intro key entry hentry
  obtain ⟨op, hop, hkey⟩ := h key entry hentry
  exact ⟨op, hsub op hop, hkey⟩

theorem agree (h : LayerOf ops layer) (h' : LayerOf ops layer') (hsettled : Settled ops) :
  Agree layer layer'
  := by
  intro key entry entry' hentry hentry'
  obtain ⟨op, hop, hkey, rfl⟩ := h key entry hentry
  obtain ⟨op', hop', hkey', rfl⟩ := h' key entry' hentry'
  rw [hsettled op hop op' hop' (hkey.trans hkey'.symm)]

theorem empty (ops : List Op) :
  LayerOf ops MemTable.empty.entries.layer
  := by
  intro key entry hentry
  simp [EntryMap.layer] at hentry

theorem apply {m : MemTable} (h : LayerOf ops m.entries.layer) {op : Op} (hop : op ∈ ops) :
  LayerOf ops (m.apply op).entries.layer
  := by
  intro key entry hentry
  rw [MemTable.layer_apply] at hentry
  split_ifs at hentry with hkey
  · exact ⟨op, hop, hkey, Option.some.inj hentry⟩
  · exact h key entry hentry

/-- What a compaction merges of such layers is such a layer. -/
theorem merged {readers : List SSTableReader} (h : ∀ r ∈ readers, LayerOf ops r.layer) :
  LayerOf ops (mergedLayer readers)
  := by
  intro key entry hentry
  obtain ⟨hnewest, -⟩ := Option.filter_eq_some_iff.mp hentry
  obtain ⟨layer, hmem, hlayer⟩ := exists_of_newest hnewest
  obtain ⟨r, hr, rfl⟩ := List.mem_map.mp hmem
  exact h r hr key entry hlayer

end LayerOf

/-! ### Processes and directories -/

/-- All layers of the process are of these operations. -/
structure Process.LayersOf (p : Process) (ops : List Op) : Prop where
  tables : ∀ r ∈ p.generations, LayerOf ops r.layer
  memtable : LayerOf ops p.db.memtable.entries.layer

/-- The constructor finds layers of these operations. -/
def DiskOf (ops : List Op) (disk : DbDisk) : Prop :=
  ∃ readers absorbed, Recoverable disk readers absorbed ∧ (∀ r ∈ readers, LayerOf ops r.layer)
    ∧ LayerOf ops (memTableOf absorbed).entries.layer

namespace Process

variable {p q : Process} {disk disk' : DbDisk} {c : Option DbSyscall} {calls ended : List Call}
  {ops : List Op}

theorem LayersOf.mono {ops' : List Op} (h : p.LayersOf ops) (hsub : ∀ op ∈ ops, op ∈ ops') :
  p.LayersOf ops'
  := ⟨fun r hr => (h.tables r hr).mono hsub, h.memtable.mono hsub⟩

theorem LayersOf.congr (h : p.LayersOf ops) (hgen : q.generations = p.generations)
    (hmem : q.db.memtable = p.db.memtable) :
  q.LayersOf ops
  := by
  constructor
  · rw [hgen]
    exact h.tables
  · rw [hmem]
    exact h.memtable

theorem LayersOf.writerStep (h : p.LayersOf ops) (hwf : p.WellFormed disk)
    (hop : ∀ op ∈ p.writer.operation.toList, op ∈ ops) (hflushed : q.writer.Flushed q.db)
    (hstep : p.WriterStep disk' c (.running q) ended) :
  q.LayersOf ops
  := by
  cases hstep with
  | append hw hne => exact ⟨h.tables, h.memtable⟩
  | sync hw => exact ⟨h.tables, h.memtable⟩
  | @apply op hw hflush =>
      exact ⟨h.tables, h.memtable.apply (hop op (by simp [hw, Writer.operation]))⟩
  | @startFlush op hw hflush =>
      exact ⟨h.tables, h.memtable.apply (hop op (by simp [hw, Writer.operation]))⟩
  | write hw hfile => exact ⟨h.tables, h.memtable⟩
  | @rename op r hw hopen =>
      refine ⟨?_, h.memtable⟩
      obtain ⟨older, r', hsst, hlayer⟩ := hflushed
      obtain rfl : r = r' := by
        have hlast := congrArg List.getLast? hsst
        simpa [Database.pushTable] using hlast
      rw [generations_pushTable hwf.compactor, List.forall_mem_append, List.forall_mem_singleton,
        hlayer]
      exact ⟨h.tables, h.memtable⟩
  | reject hw hopen => exact ⟨h.tables, h.memtable⟩
  | @reset op hw =>
      constructor
      · simp only [generations, p.db.clearMemtable_sstables]
        exact h.tables
      · dsimp only
        rw [p.db.clearMemtable_memtable]
        exact LayerOf.empty ops

theorem LayersOf.compactorStep (h : p.LayersOf ops) (hwf : p.WellFormed disk)
    (hmerges : q.compactor.Merges q.db) (hstep : p.CompactorStep disk' c (.running q) ended) :
  q.LayersOf ops
  := by
  have hcompactor := hwf.compactor
  have htables := h.tables
  cases hstep with
  | @rename toCompact merged n r hc hopen =>
      refine ⟨?_, h.memtable⟩
      rw [generations, hc] at htables
      simp only [hc, Compactor.WellFormed] at hcompactor
      obtain ⟨rest, hrest⟩ := hcompactor.1
      rw [← hrest, List.forall_mem_append] at htables
      simp only [generations, ← hrest, List.drop_left]
      rw [List.forall_mem_append, List.forall_mem_cons, hmerges]
      exact ⟨htables.1, LayerOf.merged htables.1, htables.2⟩
  | swap hc hw =>
      rw [hc] at hcompactor
      refine ⟨?_, h.memtable⟩
      rw [generations_swapIn hc hcompactor.1]
      exact htables
  | @unlink r old hc =>
      refine ⟨?_, h.memtable⟩
      simp only [generations, hc, List.cons_append] at htables ⊢
      exact (List.forall_mem_cons.mp htables).2
  | consume hc hreq => exact h.congr (by rw [generations, generations, hc]) rfl
  | skip hc hw hlen => exact h.congr (by rw [generations, generations, hc]) rfl
  | snapshot hc hw hlen => exact h.congr (by rw [generations, generations, hc]) rfl
  | merge hc hmerge => exact h.congr (by rw [generations, generations, hc]) rfl
  | allocate hc hw => exact h.congr (by rw [generations, generations, hc]) rfl
  | write hc hfile => exact h.congr (by rw [generations, generations, hc]) rfl
  | deleted hc => exact h.congr (by simp only [generations, hc, List.nil_append]) rfl
  | finish hc => exact h.congr (by rw [generations, generations, hc]) rfl

/-- A flush during a compaction writes what the compaction has merged, if it writes the same keys. -/
theorem LayersOf.flushAgrees (h : p.LayersOf ops) (hwf : p.WellFormed disk)
    (hsettled : Settled ops) :
  p.FlushAgrees
  := by
  intro op toCompact hw hwindow
  have hcompactor := hwf.compactor
  have hsub : ∀ r ∈ toCompact, r ∈ p.generations := by
    intro r hr
    apply mem_generations hwf.compactor
    cases hc : p.compactor with
    | merging tables =>
        simp only [hc, Compactor.window, Option.some.injEq] at hwindow
        rw [hc] at hcompactor
        subst hwindow
        exact hcompactor.subset hr
    | allocating tables merged =>
        simp only [hc, Compactor.window, Option.some.injEq] at hwindow
        rw [hc] at hcompactor
        subst hwindow
        exact hcompactor.1.subset hr
    | _ => simp [hc, Compactor.window] at hwindow
  have hmerged : LayerOf ops (mergedLayer toCompact) :=
    LayerOf.merged (fun r hr => h.tables r (hsub r hr))
  exact hmerged.agree h.memtable hsettled

/-- The files of a process hold its layers, and perhaps the operation of the call that is cut
short. -/
theorem LayersOf.diskOf (h : p.LayersOf ops) (hwf : p.WellFormed disk) (hm : p.Means disk calls)
    (ho : p.Ordered) (hop : ∀ op ∈ p.writer.operation.toList, op ∈ ops) :
  DiskOf ops disk
  := by
  obtain ⟨absorbed, hin, hmem, log, hfind, hlogged⟩ := hm.logged
  have hmemtable := h.memtable
  rw [hmem] at hmemtable
  -- The constructor absorbs some more operations, which are those of the log.
  have hdisk : ∀ more tail, (∀ op ∈ absorbed ++ more, op.InRange) →
      log = encodeOps (absorbed ++ more) ++ tail → decodeFrame tail = none →
      LayerOf ops (memTableOf (absorbed ++ more)).entries.layer → DiskOf ops disk := by
    intro more tail hinRange hlog htail hlayer
    obtain ⟨readers, hrec, -⟩ := hm.recoverable hwf ho more hinRange hmem hfind hlog htail
    obtain ⟨readers', hopen, hperm, -⟩ := ho.opened hwf
    obtain rfl := Except.ok.inj (hrec.opened.symm.trans hopen)
    exact ⟨readers, absorbed ++ more, hrec, fun r hr => h.tables r (hperm.subset hr), hlayer⟩
  have hsame : ∀ tail, log = encodeOps absorbed ++ tail → decodeFrame tail = none →
      DiskOf ops disk := fun tail hlog htail =>
    hdisk [] tail (by simpa using hin) (by simpa using hlog) htail (by simpa using hmemtable)
  have hnext : ∀ op, p.writer.operation = some op → op.InRange →
      log = encodeOps absorbed ++ op.encode → DiskOf ops disk := by
    intro op hw hinRange hlog
    apply hdisk [op] [] _ (by simp [hlog]) rfl
    · rw [memTableOf_concat]
      exact hmemtable.apply (hop op (by simp [hw]))
    · rw [List.forall_mem_append, List.forall_mem_singleton]
      exact ⟨hin, hinRange⟩
  cases hw : p.writer with
  | appending op rest =>
      rw [hw] at hlogged
      obtain ⟨hinRange, written, hsplit, hlog⟩ := hlogged
      by_cases hrest : rest = []
      · rw [hrest, List.append_nil] at hsplit
        exact hnext op (by rw [hw]; rfl) hinRange (by rw [hlog, hsplit])
      · exact hsame written hlog (op.decodeFrame_prefix hinRange hsplit hrest)
  | applying op =>
      rw [hw] at hlogged
      exact hnext op (by rw [hw]; rfl) hlogged.1 hlogged.2
  | _ =>
      rw [hw] at hlogged
      exact hsame [] (by simpa [Writer.Logged] using hlogged) rfl

end Process

theorem DiskOf.congr {ops : List Op} {disk disk' : DbDisk} (h : DiskOf ops disk)
    (hsst : ∀ n, disk'.find? (.sst n) = disk.find? (.sst n))
    (hlog : (disk'.find? .walLog).getD [] = (disk.find? .walLog).getD []) :
  DiskOf ops disk'
  := by
  obtain ⟨readers, absorbed, hrec, hlayers⟩ := h
  exact ⟨readers, absorbed, hrec.congr hsst hlog, hlayers⟩

/-- The process the constructor launches has the layers of the directory. -/
theorem DiskOf.launched {ops : List Op} {disk : DbDisk} (h : DiskOf ops disk) {db : Database}
    (hdb : db.Discovered disk) {log : Bytes} (hlog : (disk.find? .walLog).getD [] = log) :
  (db.replay log).idle.LayersOf ops
  := by
  obtain ⟨readers, absorbed, hrec, hreaders, hmemtable⟩ := h
  obtain ⟨hsst, hmem, -⟩ := Database.replay_recoverable hrec hdb hlog
  constructor
  · change ∀ r ∈ (db.replay log).sstables, LayerOf ops r.layer
    rw [hsst]
    exact hreaders
  · change LayerOf ops (db.replay log).memtable.entries.layer
    rw [hmem]
    exact hmemtable

/-! ### Runs -/

/-- All layers are of these operations. -/
def Status.LayersOf (status : Status) (disk : DbDisk) (ops : List Op) : Prop :=
  match status with
  | down => DiskOf ops disk
  | failed _ => True
  | opening _ => DiskOf ops disk
  | running p => p.LayersOf ops

/-- What the call writes to a key is what every call before has written to it. -/
def State.Settles (s : State) (a : Action) : Prop :=
  ∀ op ∈ a.begins, ∀ b ∈ s.begun, b.key = op.key → b = op

/-- The state of a store whose keys are settled. -/
structure State.IsSettled (s : State) : Prop where
  sound : Sound True s
  layers : s.status.LayersOf s.disk s.begun
  settled : Settled s.begun

theorem isSettled_init :
  State.init.IsSettled
  where
    sound := sound_init True
    layers := ⟨[], [], ⟨rfl, by simp, by simp, [], rfl, rfl⟩, by simp, LayerOf.empty _⟩
    settled := by simp [Settled, State.begun, State.init]

/-- The constructor keeps the layers it finds. -/
theorem Opener.layersOf_step {o : Opener} {disk disk' : DbDisk} {c : Option DbSyscall}
    {status : Status} {calls ended : List Call} {ops : List Op} (h : DiskOf ops disk)
    (hm : o.Means disk calls) (hdisk : disk' = Syscall.execOption c disk)
    (hstep : o.Step disk' c status ended) :
  status.LayersOf disk' ops
  := by
  obtain ⟨-, ho⟩ := hm
  subst hdisk
  cases hstep with
  | clean hn =>
      apply h.congr
      · intro n
        apply Syscall.find?_exec_of_notMem
        simp [Syscall.files]
      · congr 1
        apply Syscall.find?_exec_of_notMem
        simp [Syscall.files]
  | discover hdiscover => exact h
  | reject hdiscover => trivial
  | createLog =>
      apply h.congr
      · intro n
        apply Syscall.find?_exec_of_notMem
        simp [Syscall.files]
      · rw [Syscall.execOption_some, Syscall.find?_create]
        rfl
  | replayTorn hlog hlt => exact h
  | replayWhole hlog hle =>
      obtain ⟨hdb, -⟩ := ho
      exact h.launched hdb hlog
  | truncate =>
      obtain ⟨db₀, log, hdb, hfind, rfl, rfl⟩ := ho
      exact h.launched hdb (by rw [hfind, Option.getD_some])

theorem State.IsSettled.step {s t : State} {a : Action} (h : s.IsSettled)
    (hstep : step s a = some t) (ha : a.noFailure) (hin : a.InRange) (hsettles : s.Settles a) :
  t.IsSettled
  := by
  obtain ⟨hsound, hlayers, hsettled⟩ := h
  have hwf := hsound.wellFormed
  have hmeans := hsound.means
  have hbegun := begun_step hstep ha
  have hmem : ∀ op ∈ s.begun, op ∈ t.begun := by
    intro op hop
    rw [hbegun]
    exact List.mem_append_left _ hop
  have hagrees : s.FlushAgrees a := by
    unfold State.FlushAgrees
    split
    · rename_i hs
      rw [hs] at hwf hlayers
      exact hlayers.flushAgrees hwf hsettled
    · trivial
  have hsound' := sound_step hsound hstep ⟨ha, hin, fun _ => hagrees, fun _ => trivial⟩
  refine ⟨hsound', ?_, ?_⟩
  · have hmeans' := hsound'.means
    have hordered := hsound.ordered trivial
    have hop : ∀ p, s.status = .running p → ∀ op ∈ p.writer.operation.toList, op ∈ s.begun := by
      intro p hp op hop
      rw [State.begun, hp]
      exact List.mem_append_right _ hop
    generalize s.begun = ops at hlayers hmem hop
    generalize t.begun = ops' at hmem ⊢
    obtain ⟨disk, status, calls⟩ := s
    obtain ⟨c, ended, hstatus, hdisk, -⟩ := step_cases hstep ha
    obtain ⟨disk', status', calls'⟩ := t
    simp only at hwf hmeans hlayers hmeans' hordered hop hstatus hdisk ⊢
    have hmono : ∀ disk, DiskOf ops disk → DiskOf ops' disk := by
      rintro disk ⟨readers, absorbed, hrec, hreaders, hmemtable⟩
      exact ⟨readers, absorbed, hrec, fun r hr => (hreaders r hr).mono hmem, hmemtable.mono hmem⟩
    cases hstatus with
    | start =>
        subst hdisk
        exact hmono _ hlayers
    | restart => exact absurd hmeans id
    | opener hopener => exact Opener.layersOf_step (hmono _ hlayers) hmeans hdisk hopener
    | killOpener =>
        subst hdisk
        exact hmono _ hlayers
    | call hw =>
        subst hdisk
        exact ⟨(hlayers.mono hmem).tables, (hlayers.mono hmem).memtable⟩
    | @writer p count c status ended hwriter =>
        obtain ⟨q, rfl, -⟩ := hwriter.begun
        exact (hlayers.writerStep hwf (hop p rfl) hmeans'.flushed hwriter).mono hmem
    | @compactor p count c status ended hcompactor =>
        obtain ⟨q, rfl, -⟩ := hmeans.compactorStep hwf hdisk hcompactor
        exact (hlayers.compactorStep hwf hmeans'.merges hcompactor).mono hmem
    | @close p hw hc =>
        subst hdisk
        exact hmono _ (hlayers.diskOf hwf hmeans (hordered p rfl) (hop p rfl))
    | @kill p =>
        subst hdisk
        exact hmono _ (hlayers.diskOf hwf hmeans (hordered p rfl) (hop p rfl))
  · rw [hbegun]
    intro x hx y hy hkey
    rcases List.mem_append.mp hx with hx | hx
    · rcases List.mem_append.mp hy with hy | hy
      · exact hsettled x hx y hy hkey
      · exact hsettles y hy x hx hkey
    · rcases List.mem_append.mp hy with hy | hy
      · exact (hsettles x hx y hy hkey.symm).symm
      · cases a with
        | call op =>
            rw [List.mem_singleton.mp hx, List.mem_singleton.mp hy]
        | _ => simp [Action.begins] at hx

/-! ### Writes that have returned -/

theorem contents_of_settled {ops : List Op} {op : Op} (hop : op ∈ ops)
    (hsame : ∀ b ∈ ops, b.key = op.key → b = op) :
  contents ops op.key = op.value
  := by
  induction ops using List.reverseRecOn with
  | nil => simp at hop
  | append_singleton ops b ih =>
      rw [contents_concat, Op.apply]
      split_ifs with hkey
      · rw [hsame b (by simp) hkey]
      · apply ih
        · rcases List.mem_append.mp hop with hop | hop
          · exact hop
          · exact absurd (by rw [List.mem_singleton.mp hop]) hkey
        · exact fun b hb => hsame b (List.mem_append_left _ hb)

/-- A value that is read has been put. -/
theorem exists_put_of_contents {ops : List Op} {key value : Bytes}
    (h : contents ops key = some value) :
  Op.put key value ∈ ops
  := by
  induction ops using List.reverseRecOn with
  | nil => simp at h
  | append_singleton ops op ih =>
      rw [contents_concat, Op.apply] at h
      split_ifs at h with hkey
      · cases op with
        | put k v =>
            subst hkey
            obtain rfl := Option.some.inj h
            simp [Op.key]
        | remove k => simp [Op.value] at h
      · exact List.mem_append_left _ (ih h)

theorem Resolves.mem {calls : List Call} {ops : List Op} (h : Resolves calls ops) :
  (∀ op ∈ ops, op ∈ calls.map Call.op)
    ∧ ∀ c ∈ calls, c.outcome = .returned → c.op ∈ ops
  := by
  induction h with
  | nil => simp
  | counted c _ _ ih =>
      constructor
      · intro op hop
        rw [List.map_append]
        rcases List.mem_append.mp hop with hop | hop
        · exact List.mem_append_left _ (ih.1 op hop)
        · exact List.mem_append_right _ (by simpa using hop)
      · intro d hd hreturned
        rcases List.mem_append.mp hd with hd | hd
        · exact List.mem_append_left _ (ih.2 d hd hreturned)
        · rw [List.mem_singleton.mp hd]
          simp
  | dropped c _ hdrop ih =>
      constructor
      · intro op hop
        rw [List.map_append]
        exact List.mem_append_left _ (ih.1 op hop)
      · intro d hd hreturned
        rcases List.mem_append.mp hd with hd | hd
        · exact ih.2 d hd hreturned
        · rw [List.mem_singleton.mp hd] at hreturned
          simp [hreturned, Outcome.mayDrop] at hdrop

/-- What a store whose keys are settled answers: all that has been written by a call that returned,
and nothing that no call has put. -/
structure Database.Keeps (db : Database) (calls : List Call) (begun : List Op) : Prop where
  get : ∀ key, ∃ value, db.get key = .ok value
    ∧ ∀ v, value = some v → Op.put key v ∈ begun
  returned : ∀ c ∈ calls, c.outcome = .returned → db.get c.op.key = .ok c.op.value
  scan : ∀ start stop, ∃ pairs, db.scan start stop = .ok pairs
    ∧ pairs.Pairwise (fun a b => a.1 < b.1)
    ∧ ∀ key value, (key, value) ∈ pairs ↔ start ≤ key ∧ key < stop ∧ db.get key = .ok (some value)

theorem State.IsSettled.keeps {s : State} (h : s.IsSettled) {p : Process}
    (hp : s.status = .running p) :
  p.db.Keeps s.calls s.begun
  := by
  have hvalid := h.sound.valid hp
  have hget := Database.get_eq_view hvalid
  have hmeans := h.sound.means
  have hsettled := h.settled
  have hbegun : s.begun = s.calls.map Call.op ++ p.writer.operation.toList := by
    rw [State.begun, hp]
  rw [hp] at hmeans
  obtain ⟨ops, hresolves, hview⟩ := hmeans.view
  obtain ⟨hcalls, hreturned⟩ := hresolves.mem
  have happlied : ∀ op ∈ p.writer.applied, op ∈ p.writer.operation.toList := by
    intro op hop
    cases hw : p.writer with
    | flushing op' file => simpa [hw, Writer.applied, Writer.operation] using hop
    | resetting op' => simpa [hw, Writer.applied, Writer.operation] using hop
    | _ => simp [hw, Writer.applied] at hop
  have hmem : ∀ op ∈ ops ++ p.writer.applied, op ∈ s.begun := by
    rw [hbegun, List.forall_mem_append]
    exact ⟨fun op hop => List.mem_append_left _ (hcalls op hop),
      fun op hop => List.mem_append_right _ (happlied op hop)⟩
  constructor
  · intro key
    refine ⟨_, hget key, ?_⟩
    intro v hv
    rw [hview] at hv
    exact hmem _ (exists_put_of_contents hv)
  · intro c hc hret
    rw [hget, hview]
    congr 1
    have hop : c.op ∈ ops ++ p.writer.applied := List.mem_append_left _ (hreturned c hc hret)
    exact contents_of_settled hop
      (fun b hb hkey => hsettled b (hmem b hb) c.op (hmem _ hop) hkey)
  · intro start stop
    obtain ⟨pairs, hpairs, hscan⟩ := Database.scan_eq_view hvalid start stop
    refine ⟨pairs, hpairs, hscan.ascending, ?_⟩
    intro key value
    rw [hscan.mem_iff, hget, Except.ok.injEq]

theorem isSettled_of_reaches {s : State}
    (h : Reaches step (fun s a _ => a.noFailure ∧ a.InRange ∧ s.Settles a) State.init s) :
  s.IsSettled
  := h.invariant isSettled_init
    (fun _ _ _ hs hstep hok => hs.step hstep hok.1 hok.2.1 hok.2.2)

/-- A store in which no call writes something else to a key than the calls before it keeps every write
that has returned, through flushes, compactions, kills and restarts at any point and in any order, and
it always opens. -/
theorem settled_writes_kept {s : State}
    (h : Reaches step (fun s a _ => a.noFailure ∧ a.InRange ∧ s.Settles a) State.init s) :
  (∀ e, s.status ≠ .failed e)
    ∧ ∀ p, s.status = .running p → p.db.Keeps s.calls s.begun
  := by
  have hsettled := isSettled_of_reaches h
  refine ⟨?_, fun p hp => hsettled.keeps hp⟩
  intro e he
  have hmeans := hsettled.sound.means
  rw [he] at hmeans
  exact hmeans

instance (s : State) (a : Action) : Decidable (s.Settles a) :=
  inferInstanceAs (Decidable (∀ op ∈ a.begins, ∀ b ∈ s.begun, b.key = op.key → b = op))

/-- Between the snapshot of a compaction and the reservation of its number, a flush repeats a write;
the process is killed before the old tables are deleted, and the directory opened again. -/
def repeatedRun : List Action :=
  launchActions 0 2 ++ flushActions (.put [97] [1]) 52 ++ flushActions (.put [98] [1]) 52
    ++ [.compactor 0, .compactor 0, .compactor 0] ++ flushActions (.put [97] [1]) 52
    ++ (compactActions 67).take 6 ++ [.kill] ++ launchActions 0 2

theorem settled_writes_kept_repeated :
  ∃ s p, run (guarded step (fun s a => a.noFailure && decide a.InRange && decide (s.Settles a)))
      State.init repeatedRun = some s
    ∧ s.status = .running p ∧ p.db.get [97] = .ok (some [1])
  := by
  have hrun : (run (guarded step
      (fun s a => a.noFailure && decide a.InRange && decide (s.Settles a)))
      State.init repeatedRun).any
      (fun s => s.isRunning && decide (⟨.put [97] [1], .returned⟩ ∈ s.calls)) = true := by
    decide +kernel
  obtain ⟨s, hs, htest⟩ := exists_of_run hrun
  rw [Bool.and_eq_true, decide_eq_true_eq] at htest
  obtain ⟨hrunning, hcall⟩ := htest
  obtain ⟨p, hp⟩ := State.isRunning_iff.mp hrunning
  have hreach : Reaches step (fun s a _ => a.noFailure ∧ a.InRange ∧ s.Settles a) State.init s := by
    apply Reaches.of_run hs
    intro s a _ htest
    rw [Bool.and_eq_true, Bool.and_eq_true, decide_eq_true_eq, decide_eq_true_eq] at htest
    exact ⟨htest.1.1, htest.1.2, htest.2⟩
  exact ⟨s, p, hs, hp, ((settled_writes_kept hreach).2 p hp).returned _ hcall rfl⟩

end TinyLsm
