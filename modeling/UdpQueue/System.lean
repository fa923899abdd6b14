import UdpQueue.Callers
import UdpQueue.Sections

namespace UdpQueue

inductive Control where
  | idle
  | inSection
  | lockingProcess
  | sending (currentTime : Int) (result : Processed)
  | unlockingProcess
  | undefined

-- threads calling into one manager, free to be interleaved inside the sections under `lock`
structure System (Thread : Type) where
  core : Guarded Thread Manager Work Outcome Body
  processLock : Mutex Thread
  control : Thread → Control

inductive SystemOp (Thread : Type) where
  | call (t : Thread) (request : Request)
  | enter (t : Thread)
  | step (t : Thread) (reading : Int)

inductive SystemEvent (Thread : Type) where
  | called (t : Thread) (request : Request)
  | approached (t : Thread)
  | entered (t : Thread)
  | moved (t : Thread)
  | done (t : Thread) (work : Work) (outcome : Outcome)
  | released (t : Thread) (outcome : Outcome)
  | finished (t : Thread) (reading : Int) (sent : Dispatched) (currentTime : Int) (slept : Option Int)
  | left (t : Thread)
  | blocked

-- where a thread goes from the end of a section
def Outcome.next : Outcome → Control
  | .replied _ => .idle
  | .left => .unlockingProcess
  | .processed currentTime _ result => .sending currentTime result
  | .undefined => .undefined

namespace System
variable {Thread : Type}

def create (queueBufferCapacity : SizeT) (packetInterval : Int) : System Thread :=
  { core := .create (.create queueBufferCapacity packetInterval), processLock := .free
    control := fun _ => .idle }

variable [DecidableEq Thread]

def goto (s : System Thread) (t : Thread) (control : Control) : System Thread :=
  { s with control := Function.update s.control t control }

def enterSection (s : System Thread) (t : Thread) (work : Work) : System Thread :=
  { s with core := s.core.call t work }.goto t .inSection

def call (s : System Thread) (t : Thread) (request : Request) : System Thread × SystemEvent Thread :=
  match s.control t with
  | .idle => (s.enterSection t (.request request), .called t request)
  | _ => (s, .blocked)

def enter (s : System Thread) (t : Thread) : System Thread × SystemEvent Thread :=
  match s.control t with
  | .idle => (s.goto t .lockingProcess, .approached t)
  | _ => (s, .blocked)

def stepSection (s : System Thread) (t : Thread) (reading : Int) : System Thread × SystemEvent Thread :=
  match s.core.step sections t reading with
  | (_, .blocked) => (s, .blocked)
  | (core, .moved) => ({ s with core }, .moved t)
  | (core, .done work outcome) => ({ s with core }, .done t work outcome)
  | (core, .released outcome) => ({ s with core }.goto t outcome.next, .released t outcome)

def send (socketV4 socketV6 : Thread → SocketT) (s : System Thread) (t : Thread) (currentTime : Int)
    (result : Processed) (reading : Int) : System Thread × SystemEvent Thread :=
  match dispatched (socketV4 t) (socketV6 t) result.packetOut with
  | .undefined => (s.goto t .undefined, .finished t reading .undefined currentTime none)
  | sent =>
    let currentTime := if sent = .skipped then currentTime else reading
    (s.enterSection t .turn,
      .finished t reading sent currentTime (sleepTime result.targetTime currentTime))

def step (socketV4 socketV6 : Thread → SocketT) (s : System Thread) (t : Thread) (reading : Int) :
    System Thread × SystemEvent Thread :=
  match s.control t with
  | .idle => (s, .blocked)
  | .inSection => s.stepSection t reading
  | .lockingProcess =>
    match s.processLock.lock t with
    | none => (s, .blocked)
    | some processLock => ({ s with processLock }.enterSection t .turn, .entered t)
  | .sending currentTime result => s.send socketV4 socketV6 t currentTime result reading
  | .unlockingProcess => ({ s with processLock := s.processLock.unlock }.goto t .idle, .left t)
  | .undefined => (s, .blocked)

end System

def system {Thread : Type} [DecidableEq Thread] (socketV4 socketV6 : Thread → SocketT) :
    Machine (System Thread) (SystemOp Thread) (SystemEvent Thread) where
  step s
    | .call t request => s.call t request
    | .enter t => s.enter t
    | .step t reading => s.step socketV4 socketV6 t reading

section Step
variable {Thread : Type} [DecidableEq Thread] (socketV4 socketV6 : Thread → SocketT)

inductive SystemStep (s : System Thread) : System Thread × SystemEvent Thread → Prop
  | called (t : Thread) (request : Request) (hc : s.control t = .idle) :
      SystemStep s (s.enterSection t (.request request), .called t request)
  | approached (t : Thread) (hc : s.control t = .idle) :
      SystemStep s (s.goto t .lockingProcess, .approached t)
  | entered (t : Thread) (processLock : Mutex Thread) (hc : s.control t = .lockingProcess)
      (hl : s.processLock.lock t = some processLock) :
      SystemStep s ({ s with processLock }.enterSection t .turn, .entered t)
  | moved (t : Thread) (reading : Int) (core : Guarded Thread Manager Work Outcome Body)
      (hc : s.control t = .inSection) (hs : Guarded.Step sections s.core t reading (core, .moved)) :
      SystemStep s ({ s with core }, .moved t)
  | done (t : Thread) (reading : Int) (core : Guarded Thread Manager Work Outcome Body) (work : Work)
      (outcome : Outcome) (hc : s.control t = .inSection)
      (hs : Guarded.Step sections s.core t reading (core, .done work outcome)) :
      SystemStep s ({ s with core }, .done t work outcome)
  | released (t : Thread) (reading : Int) (core : Guarded Thread Manager Work Outcome Body)
      (outcome : Outcome) (hc : s.control t = .inSection)
      (hs : Guarded.Step sections s.core t reading (core, .released outcome)) :
      SystemStep s ({ s with core }.goto t outcome.next, .released t outcome)
  | crashed (t : Thread) (current reading : Int) (result : Processed)
      (hc : s.control t = .sending current result)
      (hd : dispatched (socketV4 t) (socketV6 t) result.packetOut = .undefined) :
      SystemStep s (s.goto t .undefined, .finished t reading .undefined current none)
  | finished (t : Thread) (current reading : Int) (result : Processed) (sent : Dispatched)
      (hc : s.control t = .sending current result)
      (hd : dispatched (socketV4 t) (socketV6 t) result.packetOut = sent) (hu : sent ≠ .undefined) :
      SystemStep s (s.enterSection t .turn,
        .finished t reading sent (if sent = .skipped then current else reading)
          (sleepTime result.targetTime (if sent = .skipped then current else reading)))
  | left (t : Thread) (hc : s.control t = .unlockingProcess) :
      SystemStep s ({ s with processLock := s.processLock.unlock }.goto t .idle, .left t)
  | blocked : SystemStep s (s, .blocked)

theorem section_step {s : System Thread} {t : Thread} (hc : s.control t = .inSection) (reading : Int) :
    SystemStep socketV4 socketV6 s (s.stepSection t reading) := by
  have hs := Guarded.step_spec sections s.core t reading
  rw [System.stepSection]
  rcases hr : s.core.step sections t reading with ⟨core, _ | ⟨work, outcome⟩ | outcome | _⟩
  · exact .moved t reading core hc (hr ▸ hs)
  · exact .done t reading core work outcome hc (hr ▸ hs)
  · exact .released t reading core outcome hc (hr ▸ hs)
  · exact .blocked

theorem system_step (s : System Thread) (op : SystemOp Thread) :
    SystemStep socketV4 socketV6 s ((system socketV4 socketV6).step s op) := by
  cases op with
  | call t request =>
    change SystemStep socketV4 socketV6 s (s.call t request)
    rw [System.call]
    rcases hc : s.control t with _ | _ | _ | ⟨current, result⟩ | _ | _
    · exact .called t request hc
    all_goals exact .blocked
  | enter t =>
    change SystemStep socketV4 socketV6 s (s.enter t)
    rw [System.enter]
    rcases hc : s.control t with _ | _ | _ | ⟨current, result⟩ | _ | _
    · exact .approached t hc
    all_goals exact .blocked
  | step t reading =>
    change SystemStep socketV4 socketV6 s (s.step socketV4 socketV6 t reading)
    rw [System.step]
    rcases hc : s.control t with _ | _ | _ | ⟨current, result⟩ | _ | _
    · exact .blocked
    · exact section_step socketV4 socketV6 hc reading
    · simp only []
      cases hl : s.processLock.lock t with
      | none => exact .blocked
      | some processLock => exact .entered t processLock hc hl
    · simp only [System.send]
      cases hd : dispatched (socketV4 t) (socketV6 t) result.packetOut with
      | undefined => exact .crashed t current reading result hc hd
      | skipped => exact .finished t current reading result _ hc hd (by simp)
      | sent call => exact .finished t current reading result _ hc hd (by simp)
    · exact .left t hc
    · exact .blocked

end Step

end UdpQueue
