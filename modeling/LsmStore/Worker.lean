import LsmStore.KeptRuns
import LsmStore.LevelWrap
import LsmStore.Twins

/-!
# The worker and its messages

The engine talks to its compaction worker through a channel.  A request is a message that
is sent and forgotten; a shutdown is a message followed by a wait for the thread, which
handles what was sent before and then leaves its loop.  The engine goes on while the thread
works, so their steps may fall in any order.

The commands of a run are a coarser picture: requests are counted, and a pass of the worker
is a command like any other.  Here both are related.  Whatever the order of the steps, the
process is where some run of commands is, which makes the same calls and a pass for every
request that the thread has handled (`process_is_serial`).  A shutdown returns after as
many further steps as there are messages at most, and it returns where the coarse shutdown
does, so that opening the directory afterwards is the coarse reopening
(`shutdown_drains`).
-/

set_option autoImplicit false

namespace LsmStore

open Foundation

variable {fmt : TableFormat}

/-! ## The worker -/

/-- Messages accepted by the compaction worker. -/
inductive CompactionMessage where
  | compact
  | shutdown
  deriving DecidableEq

/-- Where the worker's thread is: waiting for a message, in a pass, behind its loop, or
ended by a panic. -/
inductive WorkerLoop where
  | receiving
  | compacting
  | finished
  | panicked
  deriving DecidableEq

/-- The thread has ended, and its end of the channel is closed. -/
def WorkerLoop.ended : WorkerLoop → Bool
  | .receiving | .compacting => false
  | .finished | .panicked => true

/-- The compaction worker: its channel, its thread, and whether the handle of the thread
is still there to be joined. -/
structure CompactionWorker where
  messages : List CompactionMessage
  loop : WorkerLoop
  handle : Bool

namespace CompactionWorker

/-- Starts a worker. -/
def start : CompactionWorker where
  messages := []
  loop := .receiving
  handle := true

/-- Sends a message, which fails once the thread has ended. -/
def send (worker : CompactionWorker) (message : CompactionMessage) :
    Except Error Unit × CompactionWorker :=
  if worker.loop.ended then (.error (.compaction "sending on a closed channel"), worker)
  else (.ok (), { worker with messages := worker.messages ++ [message] })

/-- Asks the worker to run one compaction pass. -/
def requestCompaction (worker : CompactionWorker) : Except Error Unit × CompactionWorker :=
  worker.send .compact

/-- Some requests, whose results are ignored. -/
def requests (worker : CompactionWorker) : Nat → CompactionWorker
  | 0 => worker
  | count + 1 => worker.requestCompaction.2.requests count

/-- Signals shutdown and takes the handle; says whether there was one to join. -/
def signalShutdown (worker : CompactionWorker) : Bool × CompactionWorker :=
  (worker.handle, { (worker.send .shutdown).2 with handle := false })

/-- What joining the thread returns, once it has ended. -/
def join (worker : CompactionWorker) : Option (Except Error Unit) :=
  match worker.loop with
  | .receiving | .compacting => none
  | .finished => some (.ok ())
  | .panicked => some (.error (.compaction "compaction worker panicked"))

/-- The requests that the thread has not handled. -/
def pending (worker : CompactionWorker) : Nat :=
  (worker.messages.takeWhile (· = .compact)).length + if worker.loop = .compacting then 1 else 0

end CompactionWorker

/-! ## The process -/

/-- What the engine's owner is doing: using it, waiting in a shutdown, or done with one. -/
inductive Usage where
  | inUse
  | waiting
  | closed (reply : Except Error Unit)

/-- The database without what it notes of its requests. -/
def Db.bare (db : Db fmt) : Db fmt :=
  { db with engine := { db.engine with inbox := 0, running := true } }

/-- A process with an open database.  Requests are in the channel, and the database notes
only those of the call that is being made. -/
structure Process (fmt : TableFormat) where
  db : Db fmt
  worker : CompactionWorker
  usage : Usage

/-- What a process can do next. -/
inductive Act where
  | call (command : Command)
  | shutdown
  | join
  | thread

namespace Process

/-- A database that has just been opened. -/
def start (db : Db fmt) : Process fmt where
  db := db.bare
  worker := .start
  usage := .inUse

/-- The owner calls the engine.  A call that panics takes its process down. -/
def call (process : Process fmt) (command : Command) : Option (Process fmt) :=
  match process.usage, execute command process.db with
  | .inUse, .ok db =>
      if command = .workerPass ∨ command = .reopen then none
      else
        some
          { process with db := db.bare, worker := process.worker.requests db.engine.inbox }
  | _, _ => none

/-- The owner closes or drops the engine, or drops it once more. -/
def shutdown (process : Process fmt) : Option (Process fmt) :=
  match process.usage with
  | .waiting => none
  | .inUse | .closed _ =>
      let (joins, worker) := process.worker.signalShutdown
      some { process with worker, usage := if joins then .waiting else .closed (.ok ()) }

/-- The owner's wait is over once the thread has ended. -/
def join (process : Process fmt) : Option (Process fmt) :=
  match process.usage with
  | .waiting => process.worker.join.map fun reply => { process with usage := .closed reply }
  | .inUse | .closed _ => none

/-- The thread goes on in its loop: it takes a message, or it carries out the pass that it
has taken a message for. -/
def thread (process : Process fmt) : Option (Process fmt) :=
  match process.worker.loop with
  | .receiving =>
      match process.worker.messages with
      | [] => none
      | .shutdown :: _ =>
          some
            { process with worker := { process.worker with messages := [], loop := .finished } }
      | .compact :: rest =>
          some
            { process with
              worker := { process.worker with messages := rest, loop := .compacting } }
  | .compacting =>
      match compactOnce process.db with
      | .ok () db =>
          some
            { process with db := db.bare, worker := { process.worker with loop := .receiving } }
      | .error (.error cause) db =>
          some
            { process with
              db := Db.bare { db with engine := { db.engine with lastError := some cause.toString } }
              worker := { process.worker with loop := .receiving } }
      | .error .panic db =>
          some
            { process with
              db := db.bare
              worker := { process.worker with messages := [], loop := .panicked } }
  | .finished | .panicked => none

/-- One step of the process. -/
def act (process : Process fmt) : Act → Option (Process fmt)
  | .call command => process.call command
  | .shutdown => process.shutdown
  | .join => process.join
  | .thread => process.thread

/-- The process after some steps. -/
def acts (process : Process fmt) : List Act → Option (Process fmt)
  | [] => some process
  | act :: rest => (process.act act).bind fun next => next.acts rest

/-- The command that a step amounts to. -/
def command (process : Process fmt) : Act → Option Command
  | .call command => some command
  | .thread => if process.worker.loop = .compacting then some .workerPass else none
  | .shutdown | .join => none

/-- The commands that some steps amount to. -/
def serial (process : Process fmt) : List Act → List Command
  | [] => []
  | act :: rest =>
      match process.act act with
      | none => []
      | some next => (process.command act).toList ++ next.serial rest

/-- The database with counted requests is that of the process. -/
structure Reflects (process : Process fmt) (db : Db fmt) : Prop where
  same : db.bare = process.db
  running : db.engine.running = true ↔ process.worker.loop ≠ .panicked
  inbox : process.worker.loop ≠ .panicked → db.engine.inbox = process.worker.pending

end Process

/-! ## Calls do not look at the channel -/

/-- Other requests are noted, and no more than that differs. -/
def Handing (inbox : Nat) (running : Bool) (notes notes' : Notes fmt) : Prop :=
  notes' = { notes with inbox := inbox, running := running }

/-- Requests are counted from some number on, if there is a thread to make them to. -/
def Relayed (inbox : Nat) (running : Bool) (notes notes' : Notes fmt) : Prop :=
  notes.running = true ∧
    notes' = { notes with
      inbox := inbox + if running then notes.inbox else 0
      running := running }

theorem Db.handing_bare (db : Db fmt) :
    Apart (Handing db.engine.inbox db.engine.running) db.bare db :=
  @Apart.intro fmt _ db.disk db.bare.engine db.faults db.engine.notes rfl

theorem Db.relayed_bare (db : Db fmt) :
    Apart (Relayed db.engine.inbox db.engine.running) db.bare db := by
  refine @Apart.intro fmt _ db.disk db.bare.engine db.faults db.engine.notes ⟨rfl, ?_⟩
  simp [Engine.notes, Db.bare]

section Noting

variable {inbox : Nat} {running : Bool} {db db' : Db fmt}

theorem Apart.of_handing (apart : Apart (Handing inbox running) db db') :
    db'.bare = db.bare ∧ db'.engine.inbox = inbox ∧ db'.engine.running = running := by
  cases apart with
  | intro notes differs =>
      obtain rfl := differs
      exact ⟨rfl, rfl, rfl⟩

theorem Apart.of_relayed (apart : Apart (Relayed inbox running) db db') :
    db'.bare = db.bare ∧ db'.engine.running = running ∧
      db'.engine.inbox = inbox + if running then db.engine.inbox else 0 := by
  cases apart with
  | intro notes differs =>
      obtain ⟨_, rfl⟩ := differs
      exact ⟨rfl, rfl, rfl⟩

theorem Relayed.requested (notes notes' : Notes fmt) (relayed : Relayed inbox running notes notes') :
    Relayed inbox running notes.requested notes'.requested := by
  obtain ⟨alive, rfl⟩ := relayed
  unfold Notes.requested Relayed
  cases running <;> simp [alive, Nat.add_assoc]

theorem Relayed.searchTables (key : Key) (tables : List (SsTable fmt)) :
    InStep (Apart (Relayed inbox running)) (searchTables key tables) (searchTables key tables) := by
  induction tables with
  | nil =>
      intro db db' apart
      exact .ok _ apart
  | cons table rest ih =>
      rintro _ _ ⟨notes, alive, rfl⟩
      rename_i disk engine faults
      have noted : ∀ cache skips reads, Apart (Relayed inbox running)
          (⟨disk, { engine with
            cache := cache, bloomSkips := skips, sstableReads := reads }, faults⟩ : Db fmt)
          ⟨disk, { engine with
            cache := cache, bloomSkips := skips, sstableReads := reads
            inbox := inbox + if running then engine.inbox else 0, running := running }, faults⟩ :=
        fun cache skips reads => @Apart.intro fmt _ disk
          { engine with cache := cache, bloomSkips := skips, sstableReads := reads } faults
          ⟨cache, engine.lastError, skips, reads,
            inbox + if running then engine.inbox else 0, running⟩ ⟨alive, rfl⟩
      rw [LsmStore.searchTables, LsmStore.searchTables]
      by_cases outside : (!fmt.containsRange table.handle key) = true
      · rw [if_pos outside, if_pos outside]
        exact ih _ _ (noted _ _ _)
      · rw [if_neg outside, if_neg outside]
        by_cases skipped : (!fmt.mightContain table.handle key) = true
        · rw [if_pos skipped, if_pos skipped]
          exact ih _ _ (noted _ _ _)
        · rw [if_neg skipped, if_neg skipped]
          dsimp only [Engine.annotated, Engine.notes]
          cases (fmt.get table.id table.handle (disk.sst table.id) key engine.cache).1 with
          | error cause => exact .error _ (noted _ _ _)
          | ok found =>
              cases found with
              | none => exact ih _ _ (noted _ _ _)
              | some entry => cases entry <;> exact .ok _ (noted _ _ _)

theorem Relayed.get (key : Key) :
    InStep (Apart (Relayed inbox running)) (get key : Action fmt (Option Bytes)) (get key) := by
  intro db db' apart
  have memtable_eq := Apart.twins.memtable_eq apart
  have version_eq := Apart.twins.version_eq apart
  have immutable_eq : db'.engine.immutable = db.engine.immutable := by
    cases apart
    rfl
  unfold LsmStore.get getFromTables
  rw [memtable_eq, version_eq, immutable_eq]
  cases validateKey key with
  | error cause => exact .error _ apart
  | ok _ =>
      cases db.engine.memtable.get key with
      | some entry => cases entry <;> exact .ok _ apart
      | none =>
          cases db.engine.immutable.bind (·.get key) with
          | some entry => cases entry <;> exact .ok _ apart
          | none => exact searchTables key _ db db' apart

/-- **A call does the same whoever counts its requests.** -/
theorem Relayed.command {command : Command} (call : command ≠ .workerPass ∧ command ≠ .reopen) :
    InStep (Apart (Relayed inbox running)) (command.action : Action fmt Unit) command.action := by
  have requests : InStep (Apart (Relayed inbox running))
      (maybeRequestCompaction : Action fmt Unit) maybeRequestCompaction :=
    Apart.maybeRequestCompaction Relayed.requested
  cases command with
  | put key value => exact Apart.twins.put requests key value
  | delete key => exact Apart.twins.delete requests key
  | get key =>
      intro db db' apart
      have read := Relayed.get key db db' apart
      change EndsAlike _ (EStateM.map (Function.const _ ()) (LsmStore.get key) db)
        (EStateM.map (Function.const _ ()) (LsmStore.get key) db')
      unfold EStateM.map
      generalize LsmStore.get key db = ended at read
      generalize LsmStore.get key db' = ended' at read
      cases read with
      | ok value reached => exact .ok _ reached
      | error failure reached => exact .error _ reached
  | flush => exact Apart.twins.flush requests
  | compact => exact Apart.compactOnce
  | workerPass => exact absurd rfl call.1
  | reopen => exact absurd rfl call.2

end Noting

/-! ## The channel -/

namespace CompactionWorker

variable {worker : CompactionWorker}

theorem send_of_alive (alive : worker.loop.ended = false) (message : CompactionMessage) :
    (worker.send message).2 = { worker with messages := worker.messages ++ [message] } := by
  simp [send, alive]

theorem send_of_ended (ended : worker.loop.ended = true) (message : CompactionMessage) :
    (worker.send message).2 = worker := by
  simp [send, ended]

theorem loop_send (message : CompactionMessage) : (worker.send message).2.loop = worker.loop := by
  cases ended : worker.loop.ended with
  | true => rw [send_of_ended ended]
  | false => rw [send_of_alive ended]

theorem requests_of_ended (ended : worker.loop.ended = true) (count : Nat) :
    worker.requests count = worker := by
  induction count with
  | zero => rfl
  | succ count ih => rw [requests, requestCompaction, send_of_ended ended, ih]

theorem requests_of_alive (alive : worker.loop.ended = false) (count : Nat) :
    worker.requests count =
      { worker with messages := worker.messages ++ List.replicate count .compact } := by
  induction count generalizing worker with
  | zero => simp [requests]
  | succ count ih =>
      rw [requests, requestCompaction, send_of_alive alive]
      refine (ih (by exact alive)).trans ?_
      simp [List.replicate_succ]

theorem loop_requests (count : Nat) : (worker.requests count).loop = worker.loop := by
  cases ended : worker.loop.ended with
  | true => rw [requests_of_ended ended]
  | false => rw [requests_of_alive ended]

/-- Requests behind requests are pending. -/
theorem pending_requests (alive : worker.loop.ended = false)
    (only : ∀ message ∈ worker.messages, message = .compact) (count : Nat) :
    (worker.requests count).pending = worker.pending + count := by
  rw [requests_of_alive alive]
  have all : ∀ messages : List CompactionMessage, (∀ message ∈ messages, message = .compact) →
      messages.takeWhile (· = .compact) = messages := fun messages only =>
    List.takeWhile_eq_self_iff.mpr (by simpa using only)
  unfold pending
  dsimp only
  rw [all _ only, all _ (by simpa [or_imp, forall_and] using only)]
  simp
  omega

/-- A shutdown message does not change what is pending. -/
theorem pending_send_shutdown : (worker.send .shutdown).2.pending = worker.pending := by
  cases ended : worker.loop.ended with
  | true => rw [send_of_ended ended]
  | false =>
      rw [send_of_alive ended]
      unfold pending
      dsimp only
      rw [List.takeWhile_append]
      split
      · rename_i whole
        simp [whole]
      · rfl

end CompactionWorker

/-! ## The order of the messages -/

namespace Process

variable {process next : Process fmt}

/-- How owner, channel and thread fit together. -/
structure Orderly (process : Process fmt) : Prop where
  held : process.worker.handle = true ↔ process.usage = .inUse
  /-- Only a shutdown sends its message, and only that message ends the loop. -/
  requests : process.usage = .inUse →
    process.worker.loop ≠ .finished ∧ ∀ message ∈ process.worker.messages, message = .compact
  told : process.usage ≠ .inUse → process.worker.loop.ended = false →
    .shutdown ∈ process.worker.messages
  drained : process.worker.loop.ended = true → process.worker.messages = []
  joined : ∀ reply, process.usage = .closed reply → process.worker.loop.ended = true

theorem orderly_start (db : Db fmt) : (start db).Orderly where
  held := by simp [start, CompactionWorker.start]
  requests := by simp [start, CompactionWorker.start]
  told := by simp [start]
  drained := by simp [start, CompactionWorker.start]
  joined := by simp [start]

theorem call_of_some {command : Command} (called : process.call command = some next) :
    process.usage = .inUse ∧ (command ≠ .workerPass ∧ command ≠ .reopen) ∧
      ∃ db, execute command process.db = .ok db ∧
        next = { process with
          db := db.bare
          worker := process.worker.requests db.engine.inbox } := by
  unfold call at called
  cases used : process.usage with
  | inUse =>
      cases ran : execute command process.db with
      | error failure => simp [used, ran] at called
      | ok db =>
          simp only [used, ran] at called
          split at called
          · cases called
          · rename_i allowed
            cases called
            exact ⟨rfl, not_or.mp allowed, db, rfl, rfl⟩
  | waiting => simp [used] at called
  | closed reply => simp [used] at called

theorem shutdown_of_some (closing : process.shutdown = some next) :
    process.usage ≠ .waiting ∧
      next = { process with
        worker := { (process.worker.send .shutdown).2 with handle := false }
        usage := if process.worker.handle then .waiting else .closed (.ok ()) } := by
  unfold shutdown at closing
  cases used : process.usage with
  | waiting => simp [used] at closing
  | inUse =>
      simp only [used] at closing
      cases closing
      exact ⟨by simp, rfl⟩
  | closed reply =>
      simp only [used] at closing
      cases closing
      exact ⟨by simp, rfl⟩

theorem join_of_some (joined : process.join = some next) :
    process.usage = .waiting ∧ process.worker.loop.ended = true ∧
      ∃ reply, next = { process with usage := .closed reply } := by
  unfold join at joined
  cases used : process.usage with
  | inUse => simp [used] at joined
  | closed reply => simp [used] at joined
  | waiting =>
      simp only [used, Option.map_eq_some_iff] at joined
      obtain ⟨reply, isReply, rfl⟩ := joined
      refine ⟨rfl, ?_, reply, rfl⟩
      unfold CompactionWorker.join at isReply
      cases at_ : process.worker.loop <;> simp_all [WorkerLoop.ended]

/-- **What a step of the thread does.** -/
theorem thread_of_some (went : process.thread = some next) :
    (process.worker.loop = .receiving ∧
      ((∃ rest, process.worker.messages = .shutdown :: rest ∧
          next = { process with
            worker := { process.worker with messages := [], loop := .finished } }) ∨
        ∃ rest, process.worker.messages = .compact :: rest ∧
          next = { process with
            worker := { process.worker with messages := rest, loop := .compacting } })) ∨
    process.worker.loop = .compacting ∧
      ((∃ db, next = { process with
          db := db
          worker := { process.worker with loop := .receiving } }) ∨
        ∃ db, next = { process with
          db := db
          worker := { process.worker with messages := [], loop := .panicked } }) := by
  unfold thread at went
  cases at_ : process.worker.loop with
  | finished => simp [at_] at went
  | panicked => simp [at_] at went
  | receiving =>
      refine .inl ⟨rfl, ?_⟩
      simp only [at_] at went
      cases inChannel : process.worker.messages with
      | nil => simp [inChannel] at went
      | cons message rest =>
          cases message with
          | shutdown =>
              simp only [inChannel] at went
              cases went
              exact .inl ⟨rest, rfl, rfl⟩
          | compact =>
              simp only [inChannel] at went
              cases went
              exact .inr ⟨rest, rfl, rfl⟩
  | compacting =>
      refine .inr ⟨rfl, ?_⟩
      simp only [at_] at went
      cases ran : compactOnce process.db with
      | ok value db =>
          simp only [ran] at went
          cases went
          exact .inl ⟨_, rfl⟩
      | error failure db =>
          cases failure with
          | error cause =>
              simp only [ran] at went
              cases went
              exact .inl ⟨_, rfl⟩
          | panic =>
              simp only [ran] at went
              cases went
              exact .inr ⟨_, rfl⟩

/-- **Every step keeps the order.** -/
theorem Orderly.act {act : Act} (orderly : process.Orderly) (acted : process.act act = some next) :
    next.Orderly := by
  cases act with
  | call command =>
      obtain ⟨used, _, db, _, rfl⟩ := call_of_some acted
      obtain ⟨unfinished, only⟩ := orderly.requests used
      cases ended : process.worker.loop.ended with
      | true =>
          rw [CompactionWorker.requests_of_ended ended]
          exact ⟨orderly.held, orderly.requests, orderly.told, orderly.drained, orderly.joined⟩
      | false =>
          rw [CompactionWorker.requests_of_alive ended]
          refine ⟨orderly.held, fun _ => ⟨unfinished, ?_⟩, fun unused => absurd used unused,
            fun gone => ?_, orderly.joined⟩
          · intro message member
            rcases List.mem_append.mp member with earlier | new
            · exact only message earlier
            · exact List.eq_of_mem_replicate new
          · rw [gone] at ended
            cases ended
  | shutdown =>
      obtain ⟨idle, rfl⟩ := shutdown_of_some acted
      have closed : (if process.worker.handle then Usage.waiting else .closed (.ok ())) ≠ .inUse := by
        split <;> simp
      refine ⟨by simp [closed], fun used => absurd used closed, ?_, ?_, ?_⟩
      · intro _ alive
        rw [CompactionWorker.loop_send] at alive
        dsimp only
        rw [CompactionWorker.send_of_alive alive]
        exact List.mem_append_right _ List.mem_cons_self
      · intro ended
        rw [CompactionWorker.loop_send] at ended
        dsimp only
        rw [CompactionWorker.send_of_ended ended]
        exact orderly.drained ended
      · intro reply isClosed
        rw [CompactionWorker.loop_send]
        cases used : process.usage with
        | waiting => exact absurd used idle
        | closed reply' => exact orderly.joined reply' used
        | inUse =>
            rw [if_pos (orderly.held.mpr used)] at isClosed
            cases isClosed
  | join =>
      obtain ⟨waiting, ended, reply, rfl⟩ := join_of_some acted
      have taken : process.worker.handle ≠ true := by
        rw [Ne, orderly.held, waiting]
        simp
      exact ⟨by simp [taken], by simp, fun _ alive => by simp [ended] at alive, orderly.drained,
        fun _ _ => ended⟩
  | thread =>
      rcases thread_of_some acted with
        ⟨receiving, ⟨rest, inChannel, rfl⟩ | ⟨rest, inChannel, rfl⟩⟩ |
          ⟨compacting, ⟨db, rfl⟩ | ⟨db, rfl⟩⟩
      · refine ⟨orderly.held, fun used => ?_, by simp [WorkerLoop.ended], fun _ => rfl,
          fun _ _ => rfl⟩
        have impossible := (orderly.requests used).2 .shutdown (by simp [inChannel])
        cases impossible
      · refine ⟨orderly.held, fun used => ⟨by simp, fun message member => ?_⟩,
          fun unused _ => ?_, by simp [WorkerLoop.ended], fun reply isClosed => ?_⟩
        · exact (orderly.requests used).2 message (by simp [inChannel, show message ∈ rest from member])
        · have told := orderly.told unused (by simp [receiving, WorkerLoop.ended])
          simpa [inChannel] using told
        · have ended := orderly.joined reply isClosed
          simp [receiving, WorkerLoop.ended] at ended
      · refine ⟨orderly.held, fun used => ⟨by simp, (orderly.requests used).2⟩,
          fun unused _ => orderly.told unused (by simp [compacting, WorkerLoop.ended]),
          by simp [WorkerLoop.ended], fun reply isClosed => ?_⟩
        have ended := orderly.joined reply isClosed
        simp [compacting, WorkerLoop.ended] at ended
      · exact ⟨orderly.held, fun _ => ⟨by simp, by simp⟩, by simp [WorkerLoop.ended],
          fun _ => rfl, fun _ _ => rfl⟩

theorem acts_cons {act : Act} {rest : List Act} {last : Process fmt}
    (ran : process.acts (act :: rest) = some last) :
    ∃ mid, process.act act = some mid ∧ mid.acts rest = some last :=
  Option.bind_eq_some_iff.mp ran

/-- **What every step keeps, every run keeps.** -/
theorem acts_keep {Keeps : Process fmt → Prop}
    (step : ∀ {process act next}, Keeps process → process.act act = some next → Keeps next)
    {acts : List Act} (kept : Keeps process) (ran : process.acts acts = some next) : Keeps next := by
  induction acts generalizing process with
  | nil =>
      cases ran
      exact kept
  | cons act rest ih =>
      obtain ⟨mid, acted, more⟩ := acts_cons ran
      exact ih (step kept acted) more

theorem Orderly.acts {acts : List Act} (orderly : process.Orderly)
    (ran : process.acts acts = some next) : next.Orderly :=
  acts_keep Orderly.act orderly ran

/-! ## The process is serial -/

variable {db : Db fmt}

/-- A call of the process is the call of the commands. -/
theorem Reflects.call (reflects : process.Reflects db) (orderly : process.Orderly)
    {command : Command} (called : process.call command = some next) :
    ∃ db', execute command db = .ok db' ∧ next.Reflects db' := by
  obtain ⟨used, isCall, after, executed, rfl⟩ := call_of_some called
  obtain ⟨unfinished, only⟩ := orderly.requests used
  have alike := Relayed.command isCall _ _ db.relayed_bare
  rw [reflects.same] at alike
  obtain ⟨db', executed', apart⟩ := execute_of_alike alike executed
  obtain ⟨same, running, counted⟩ := apart.of_relayed
  refine ⟨db', executed', same, ?_, ?_⟩
  · rw [running, reflects.running]
    dsimp only
    rw [CompactionWorker.loop_requests]
  · dsimp only
    rw [CompactionWorker.loop_requests]
    intro unpanicked
    have alive : process.worker.loop.ended = false := by
      cases at_ : process.worker.loop <;> simp_all [WorkerLoop.ended]
    rw [counted, if_pos (reflects.running.mpr unpanicked), reflects.inbox unpanicked,
      CompactionWorker.pending_requests alive only]

/-- The pass that the thread carries out is the worker's pass. -/
theorem Reflects.pass (reflects : process.Reflects db)
    (compacting : process.worker.loop = .compacting) (went : process.thread = some next) :
    ∃ db', workerPass db = .ok () db' ∧ next.Reflects db' ∧
      db'.engine.inbox + 1 = db.engine.inbox := by
  have unpanicked : process.worker.loop ≠ .panicked := by simp [compacting]
  have running := reflects.running.mpr unpanicked
  have inbox := reflects.inbox unpanicked
  have isPending : process.worker.pending =
      (process.worker.messages.takeWhile (· = .compact)).length + 1 := by
    rw [CompactionWorker.pending, if_pos compacting]
  have busy : ¬ (db.engine.inbox = 0 ∨ db.engine.running = false) := by
    rw [inbox, isPending, running]
    simp
  have sameBare : Db.bare { db with engine := { db.engine with inbox := db.engine.inbox - 1 } } =
      process.db := reflects.same
  have alike := Apart.compactOnce _ _
    (Db.handing_bare { db with engine := { db.engine with inbox := db.engine.inbox - 1 } })
  rw [sameBare] at alike
  have left : db.engine.inbox - 1 =
      (process.worker.messages.takeWhile (· = .compact)).length := by
    rw [inbox, isPending, Nat.add_sub_cancel]
  have fewer : db.engine.inbox - 1 + 1 = db.engine.inbox := by
    rw [left, inbox, isPending]
  unfold workerPass
  rw [if_neg busy]
  simp only [thread, compacting] at went
  dsimp only at alike ⊢
  generalize compactOnce process.db = ended at alike went
  generalize compactOnce _ = ended' at alike
  cases alike with
  | ok value apart =>
      cases went
      obtain ⟨same, isInbox, isRunning⟩ := apart.of_handing
      refine ⟨_, rfl, ⟨same, by simp [isRunning, running], fun _ => ?_⟩, by rw [isInbox, fewer]⟩
      rw [isInbox, left]
      simp [CompactionWorker.pending]
  | error failure apart =>
      obtain ⟨same, isInbox, isRunning⟩ := apart.of_handing
      cases failure with
      | error cause =>
          cases went
          refine ⟨_, rfl, ⟨?_, by simp [isRunning, running], fun _ => ?_⟩, by
            dsimp only
            rw [isInbox, fewer]⟩
          · exact congrArg (fun db : Db fmt => { db with
              engine := { db.engine with lastError := some cause.toString } }) same
          · dsimp only
            rw [isInbox, left]
            simp [CompactionWorker.pending]
      | panic =>
          cases went
          exact ⟨_, rfl, ⟨same, by simp, by simp⟩, by
            dsimp only
            rw [isInbox, fewer]⟩

/-- Taking a message, sending one for the shutdown and joining change nothing in the
database. -/
theorem Reflects.quiet (reflects : process.Reflects db) (same : next.db = process.db)
    (panicked : next.worker.loop = .panicked ↔ process.worker.loop = .panicked)
    (pending : process.worker.loop ≠ .panicked → next.worker.pending = process.worker.pending) :
    next.Reflects db := by
  refine ⟨reflects.same.trans same.symm, ?_, fun unpanicked => ?_⟩
  · rw [reflects.running, Ne, Ne, panicked]
  · have unpanicked' : process.worker.loop ≠ .panicked := by rwa [Ne, ← panicked]
    rw [reflects.inbox unpanicked', pending unpanicked']

/-- **A step of the process is its command, or nothing.** -/
theorem Reflects.act {act : Act} (reflects : process.Reflects db) (orderly : process.Orderly)
    (acted : process.act act = some next) :
    ∃ db', executeAll (process.command act).toList db = .ok db' ∧ next.Reflects db' := by
  cases act with
  | call command =>
      obtain ⟨db', executed, reflects'⟩ := reflects.call orderly acted
      refine ⟨db', ?_, reflects'⟩
      simp only [Process.command, Option.toList_some, executeAll, executed]
  | shutdown =>
      obtain ⟨_, rfl⟩ := shutdown_of_some acted
      refine ⟨db, rfl, reflects.quiet rfl ?_ fun _ => ?_⟩
      · rw [CompactionWorker.loop_send]
      · exact CompactionWorker.pending_send_shutdown
  | join =>
      obtain ⟨_, _, reply, rfl⟩ := join_of_some acted
      exact ⟨db, rfl, reflects.quiet rfl Iff.rfl fun _ => rfl⟩
  | thread =>
      by_cases compacting : process.worker.loop = .compacting
      · obtain ⟨db', passed, reflects', _⟩ := reflects.pass compacting acted
        refine ⟨db', ?_, reflects'⟩
        rw [Process.command, if_pos compacting]
        simp only [Option.toList_some, executeAll,
          execute_of_ok (show Command.workerPass.action db = _ from passed)]
      · rw [Process.command, if_neg compacting]
        refine ⟨db, rfl, ?_⟩
        rcases thread_of_some acted with
          ⟨receiving, ⟨rest, inChannel, rfl⟩ | ⟨rest, inChannel, rfl⟩⟩ | ⟨compacting', _⟩
        · refine reflects.quiet rfl (by simp [receiving]) fun _ => ?_
          simp [CompactionWorker.pending, inChannel, receiving]
        · refine reflects.quiet rfl (by simp [receiving]) fun _ => ?_
          simp [CompactionWorker.pending, inChannel, receiving]
        · exact absurd compacting' compacting

theorem Reflects.acts {acts : List Act} (reflects : process.Reflects db)
    (orderly : process.Orderly) (ran : process.acts acts = some next) :
    ∃ db', executeAll (process.serial acts) db = .ok db' ∧ next.Reflects db' := by
  induction acts generalizing process db with
  | nil =>
      cases ran
      exact ⟨db, rfl, reflects⟩
  | cons act rest ih =>
      obtain ⟨mid, acted, more⟩ := acts_cons ran
      obtain ⟨db', executed, reflects'⟩ := reflects.act orderly acted
      obtain ⟨db'', executed', reflects''⟩ := ih reflects' (orderly.act acted) more
      refine ⟨db'', ?_, reflects''⟩
      simp only [serial, acted]
      rw [LsmStore.executeAll_append, executed]
      exact executed'

theorem reflects_start {db : Db fmt} (idle : db.engine.inbox = 0)
    (alive : db.engine.running = true) : (start db).Reflects db where
  same := rfl
  running := by simp [alive, start, CompactionWorker.start]
  inbox _ := by rw [idle]; rfl

end Process

/-- The call of a step, if it is one. -/
def Act.called : Act → Option Command
  | .call command => some command
  | .shutdown | .join | .thread => none

/-- The serial commands are the calls, with passes in between. -/
theorem Process.serial_calls {acts : List Act} {process next : Process fmt}
    (ran : process.acts acts = some next) :
    (process.serial acts).filter (· ≠ .workerPass) = acts.filterMap Act.called := by
  induction acts generalizing process with
  | nil => rfl
  | cons act rest ih =>
      obtain ⟨mid, acted, more⟩ := acts_cons ran
      simp only [serial, acted, List.filter_append, ih more]
      cases act with
      | call command =>
          obtain ⟨_, isCall, _⟩ := call_of_some acted
          simp [Process.command, Act.called, isCall.1]
      | shutdown => rfl
      | join => rfl
      | thread =>
          rw [List.filterMap_cons_none (show Act.thread.called = none from rfl)]
          by_cases compacting : process.worker.loop = .compacting
          · simp [Process.command, compacting]
          · simp [Process.command, compacting]

/-- **A process is serial.**  However the steps of the owner and of the worker's thread fall,
the process is where the run of its commands is: the calls in the order they were made, and
a pass for each request that the thread has handled, where it was handled.  The requests
that are left in the channel are those that the run still counts. -/
theorem process_is_serial {db : Db fmt} (idle : db.engine.inbox = 0)
    (alive : db.engine.running = true) {acts : List Act} {process : Process fmt}
    (ran : (Process.start db).acts acts = some process) :
    ((Process.start db).serial acts).filter (· ≠ .workerPass) = acts.filterMap Act.called ∧
      ∃ reached, executeAll ((Process.start db).serial acts) db = .ok reached ∧
        process.Reflects reached :=
  ⟨Process.serial_calls ran,
    (Process.reflects_start idle alive).acts (Process.orderly_start db) ran⟩

/-- A process with a new database, which compacts as soon as there is a table. -/
def eagerProcess : Process smallTables := .start (Db.new smallTables (eagerOptions 2))

/-- A write falls between the request that the thread has taken and its pass. -/
def overlappingActs : List Act :=
  [.call (.put [97] [49]), .call .flush, .thread, .call (.put [98] [50]), .thread]

/-- The pass comes after the write. -/
theorem process_is_serial_overlapping :
    ∃ process reached, eagerProcess.acts overlappingActs = some process ∧
      executeAll [.put [97] [49], .flush, .put [98] [50], .workerPass]
        (Db.new smallTables (eagerOptions 2)) = .ok reached ∧
      process.Reflects reached := by
  obtain ⟨process, ran⟩ : ∃ process, eagerProcess.acts overlappingActs = some process :=
    Option.isSome_iff_exists.mp (by decide +kernel)
  have commands : eagerProcess.serial overlappingActs =
      [.put [97] [49], .flush, .put [98] [50], .workerPass] := by
    decide +kernel
  obtain ⟨_, reached, executed, reflects⟩ :=
    process_is_serial (show (Db.new smallTables (eagerOptions 2)).engine.inbox = 0 from rfl) rfl ran
  change executeAll (eagerProcess.serial overlappingActs) _ = _ at executed
  rw [commands] at executed
  exact ⟨process, reached, ran, executed, reflects⟩

/-! ## Shutting down -/

theorem drain_add (first second : Nat) :
    (drain (first + second) : Action fmt Unit) = (drain first >>= fun _ => drain second) := by
  induction first with
  | zero => rw [Nat.zero_add]; rfl
  | succ first ih =>
      rw [Nat.succ_add, drain, ih, drain, bind_assoc]

namespace Process

variable {process next : Process fmt} {before : Db fmt}

/-- The shutdown that began in the database is under way, or over. -/
def Draining (before : Db fmt) (process : Process fmt) : Prop :=
  (process.Orderly ∧ process.usage ≠ .inUse) ∧
    ∃ handled reached, drain handled before = .ok () reached ∧
      handled + reached.engine.inbox = before.engine.inbox ∧ process.Reflects reached

/-- **A step of a process that is being shut down** handles at most one more request. -/
theorem Draining.act {act : Act} (draining : process.Draining before)
    (acted : process.act act = some next) : next.Draining before := by
  obtain ⟨⟨orderly, closing⟩, handled, reached, drained, counted, reflects⟩ := draining
  have stays : (process.command act).toList = [] → next.usage ≠ .inUse →
      next.Draining before := by
    intro nothing closing'
    obtain ⟨db', executed, reflects'⟩ := reflects.act orderly acted
    rw [nothing] at executed
    cases executed
    exact ⟨⟨orderly.act acted, closing'⟩, handled, reached, drained, counted, reflects'⟩
  cases act with
  | call command =>
      obtain ⟨used, _⟩ := call_of_some acted
      exact absurd used closing
  | shutdown =>
      refine stays rfl ?_
      obtain ⟨_, rfl⟩ := shutdown_of_some acted
      dsimp only
      split <;> simp
  | join =>
      refine stays rfl ?_
      obtain ⟨_, _, reply, rfl⟩ := join_of_some acted
      simp
  | thread =>
      have closing' : next.usage ≠ .inUse := by
        rcases thread_of_some acted with
          ⟨_, ⟨_, _, rfl⟩ | ⟨_, _, rfl⟩⟩ | ⟨_, ⟨_, rfl⟩ | ⟨_, rfl⟩⟩ <;> exact closing
      by_cases compacting : process.worker.loop = .compacting
      · obtain ⟨db', passed, reflects', fewer⟩ := reflects.pass compacting acted
        refine ⟨⟨orderly.act acted, closing'⟩, handled + 1, db', ?_, by omega, reflects'⟩
        rw [drain_add, bind_of_ok drained]
        exact (bind_of_ok passed).trans rfl
      · exact stays (by rw [Process.command, if_neg compacting]; rfl) closing'

/-- Once the thread has ended, nothing is left to drain. -/
theorem Draining.ended (draining : process.Draining before)
    (ended : process.worker.loop.ended = true) :
    ∃ after, LsmStore.shutdown before = .ok () after ∧ process.Reflects after := by
  obtain ⟨⟨orderly, _⟩, handled, reached, drained, counted, reflects⟩ := draining
  have idle : reached.engine.inbox = 0 ∨ reached.engine.running = false := by
    by_cases panicked : process.worker.loop = .panicked
    · right
      have dead := mt reflects.running.mp (not_not_intro panicked)
      simpa using dead
    · left
      rw [reflects.inbox panicked, CompactionWorker.pending, orderly.drained ended]
      cases at_ : process.worker.loop <;> simp_all [WorkerLoop.ended]
  refine ⟨reached, ?_, reflects⟩
  change drain before.engine.inbox before = .ok () reached
  rw [← counted, drain_add, bind_of_ok drained]
  exact drain_of_idle _ idle

/-- The steps that the thread has before it: one to take each message, and one for each
pass. -/
def distance (process : Process fmt) : Nat :=
  2 * process.worker.messages.length + if process.worker.loop = .compacting then 1 else 0

/-- As long as it has not ended, the thread can go on. -/
theorem thread_goes_on (alive : process.worker.loop.ended = false)
    (told : process.worker.messages ≠ []) :
    ∃ next, process.thread = some next ∧ next.usage = process.usage ∧
      next.distance < process.distance := by
  unfold thread distance
  cases at_ : process.worker.loop with
  | finished => simp [at_, WorkerLoop.ended] at alive
  | panicked => simp [at_, WorkerLoop.ended] at alive
  | receiving =>
      cases inChannel : process.worker.messages with
      | nil => exact absurd inChannel told
      | cons message rest =>
          cases message with
          | shutdown => exact ⟨_, rfl, rfl, by simp⟩
          | compact => exact ⟨_, rfl, rfl, by simp; omega⟩
  | compacting =>
      cases ran : compactOnce process.db with
      | ok value db => exact ⟨_, rfl, rfl, by simp⟩
      | error failure db =>
          cases failure with
          | error cause => exact ⟨_, rfl, rfl, by simp⟩
          | panic => exact ⟨_, rfl, rfl, by simp⟩

/-- **The wait is not for ever**: the thread goes on until it ends. -/
theorem ends (orderly : process.Orderly) (waiting : process.usage = .waiting) :
    ∃ steps ≤ process.distance, ∃ last,
      process.acts (List.replicate steps .thread) = some last ∧
        last.worker.loop.ended = true ∧ last.usage = .waiting := by
  -- Each step of the thread brings it nearer to its end.
  induction bound : process.distance using Nat.strong_induction_on generalizing process with
  | _ distance ih =>
      cases ended : process.worker.loop.ended with
      | true => exact ⟨0, Nat.zero_le _, process, rfl, ended, waiting⟩
      | false =>
          have told := orderly.told (by simp [waiting]) ended
          obtain ⟨next, went, sameUsage, nearer⟩ :=
            thread_goes_on ended (List.ne_nil_of_mem told)
          rw [bound] at nearer
          have acted : process.act .thread = some next := went
          obtain ⟨steps, few, last, ran, ended', still⟩ :=
            ih _ nearer (orderly.act acted) (sameUsage.trans waiting) rfl
          refine ⟨steps + 1, by omega, last, ?_, ended', still⟩
          rw [List.replicate_succ, acts, acted]
          exact ran

theorem acts_append {first second : List Act} {mid : Process fmt}
    (ran : process.acts first = some mid) : process.acts (first ++ second) = mid.acts second := by
  induction first generalizing process with
  | nil =>
      cases ran
      rfl
  | cons act rest ih =>
      obtain ⟨mid', acted, more⟩ := acts_cons ran
      rw [List.cons_append, acts, acted]
      exact ih more

/-- The first shutdown sends its message and waits. -/
theorem shutdown_waits (process : Process fmt) (used : process.usage = .inUse)
    (held : process.worker.handle = true) :
    ∃ closing, process.act .shutdown = some closing ∧ closing.usage = .waiting ∧
      closing.distance ≤ 2 * process.worker.messages.length + 3 := by
  have acted : process.act .shutdown = some { process with
      worker := { (process.worker.send .shutdown).2 with handle := false }
      usage := .waiting } := by
    simp [act, shutdown, used, CompactionWorker.signalShutdown, held]
  refine ⟨_, acted, rfl, ?_⟩
  unfold distance
  dsimp only
  cases ended : process.worker.loop.ended with
  | true =>
      rw [CompactionWorker.send_of_ended ended]
      split <;> omega
  | false =>
      rw [CompactionWorker.send_of_alive ended]
      simp only [List.length_append, List.length_singleton]
      split <;> omega

/-- The wait ends with the thread. -/
theorem join_of_ended (ended : process.worker.loop.ended = true)
    (waiting : process.usage = .waiting) :
    ∃ last reply, process.act .join = some last ∧ last.usage = .closed reply := by
  unfold act join CompactionWorker.join
  rw [waiting]
  cases at_ : process.worker.loop with
  | receiving => simp [at_, WorkerLoop.ended] at ended
  | compacting => simp [at_, WorkerLoop.ended] at ended
  | finished => exact ⟨_, _, rfl, rfl⟩
  | panicked => exact ⟨_, _, rfl, rfl⟩

/-- Opening the directory that a shutdown leaves is the reopening. -/
theorem Reflects.reopens {after : Db fmt} (reflects : process.Reflects after)
    (drained : LsmStore.shutdown before = .ok () after) :
    execute .reopen before =
      (openWith process.db.engine.options process.db.disk).map fun engine =>
        ⟨process.db.disk, engine, process.db.faults⟩ := by
  rw [← reflects.same]
  change _ = (openWith after.engine.options after.disk).map _
  cases opened : openWith after.engine.options after.disk with
  | ok engine =>
      refine execute_of_ok (bind_eq_ok.mpr ⟨(), after, drained, bind_eq_ok.mpr ⟨after, after, rfl, ?_⟩⟩)
      rw [opened]
      rfl
  | error failure =>
      have failed : LsmStore.reopen before = .error failure after :=
        bind_eq_error.mpr (.inr ⟨(), after, drained, bind_eq_error.mpr (.inr ⟨after, after, rfl, by
          rw [opened]
          rfl⟩)⟩)
      rw [execute, show (Command.reopen.action : Action fmt Unit) before = _ from failed]
      cases failure <;> rfl

end Process

/-- **A shutdown drains the channel and returns.**  Take a process that any steps have led
to, and the database of its commands.  If its owner shuts it down, then whichever way the
steps fall, it is left where the coarse shutdown leaves that database, and opening its
directory is the coarse reopening.  And it does get there, after at most two steps of the
thread for each message. -/
theorem shutdown_drains {db : Db fmt} (idle : db.engine.inbox = 0)
    (alive : db.engine.running = true) {acts : List Act} {process : Process fmt}
    (ran : (Process.start db).acts acts = some process) (used : process.usage = .inUse) :
    ∃ before after, executeAll ((Process.start db).serial acts) db = .ok before ∧
      shutdown before = .ok () after ∧
      (∀ later last reply, process.acts (.shutdown :: later) = some last →
        last.usage = .closed reply → last.Reflects after ∧
          execute .reopen before =
            (openWith last.db.engine.options last.db.disk).map fun engine =>
              ⟨last.db.disk, engine, last.db.faults⟩) ∧
      ∃ later last reply, later.length ≤ 2 * process.worker.messages.length + 4 ∧
        process.acts (.shutdown :: later) = some last ∧ last.usage = .closed reply := by
  have orderly := (Process.orderly_start db).acts ran
  obtain ⟨before, executed, reflects⟩ :=
    (Process.reflects_start idle alive).acts (Process.orderly_start db) ran
  -- The message is sent, and the owner waits.
  obtain ⟨closing, acted, waits, near⟩ : ∃ closing, process.act .shutdown = some closing ∧
      closing.usage = .waiting ∧ closing.distance ≤ 2 * process.worker.messages.length + 3 :=
    process.shutdown_waits used (orderly.held.mpr used)
  have orderly' := orderly.act acted
  have draining : closing.Draining before := by
    obtain ⟨db', stays, reflects'⟩ := reflects.act orderly acted
    cases stays
    exact ⟨⟨orderly', by simp [waits]⟩, 0, before, rfl, Nat.zero_add _, reflects'⟩
  -- The thread ends, and the wait with it.
  obtain ⟨steps, few, ended, went, isOver, still⟩ := Process.ends orderly' waits
  obtain ⟨after, drained, _⟩ := (Process.acts_keep Process.Draining.act draining went).ended isOver
  refine ⟨before, after, executed, drained, ?_, ?_⟩
  · intro later last reply ranLater isClosed
    obtain ⟨mid, acted', more⟩ := Process.acts_cons ranLater
    obtain rfl : closing = mid := Option.some.inj (acted.symm.trans acted')
    have draining' := Process.acts_keep Process.Draining.act draining more
    obtain ⟨after', drained', reflects'⟩ := draining'.ended (draining'.1.1.joined reply isClosed)
    obtain rfl : after = after' := by
      have same := drained.symm.trans drained'
      injection same
    exact ⟨reflects', reflects'.reopens drained⟩
  · obtain ⟨last, reply, joined, isClosed⟩ := ended.join_of_ended isOver still
    refine ⟨List.replicate steps .thread ++ [.join], last, reply, ?_, ?_, isClosed⟩
    · rw [List.length_append, List.length_replicate, List.length_singleton]
      omega
    · rw [Process.acts, acted]
      refine (Process.acts_append went).trans ?_
      rw [Process.acts, joined]
      rfl

/-- A process with one request in its channel is shut down. -/
theorem shutdown_drains_request :
    ∃ (process last : Process smallTables) (before after : Db smallTables) (later : List Act)
      (reply : Except Error Unit),
      eagerProcess.acts [.call (.put [97] [49]), .call .flush] = some process ∧
      process.worker.messages = [.compact] ∧ shutdown before = .ok () after ∧
      process.acts (.shutdown :: later) = some last ∧ last.usage = .closed reply ∧
      last.Reflects after := by
  have evaluated : (eagerProcess.acts [.call (.put [97] [49]), .call .flush]).map
      (fun process => (process.worker.messages, process.worker.handle)) =
      some ([.compact], true) := by
    decide +kernel
  obtain ⟨process, ran, observed⟩ := Option.map_eq_some_iff.mp evaluated
  obtain ⟨messages, held⟩ := Prod.mk.inj observed
  have orderly := (Process.orderly_start (Db.new smallTables (eagerOptions 2))).acts ran
  obtain ⟨before, after, _, drained, lands, later, last, reply, _, closes, isClosed⟩ :=
    shutdown_drains (show (Db.new smallTables (eagerOptions 2)).engine.inbox = 0 from rfl) rfl
      ran (orderly.held.mp held)
  exact ⟨process, last, before, after, later, reply, ran, messages, drained, closes, isClosed,
    (lands later last reply closes isClosed).1⟩

end LsmStore
