import Lthread.Spec.Board

/-! Compute sections: which thread executes an lthread, and the record of what happens
to it between `lthread_compute_begin` and the resume on its own scheduler. -/

namespace Lthr

inductive Stage
  | own
  | entered
  | ended
  deriving DecidableEq, Repr

inductive SectionEvent
  | enter
  | stop
  | resume
  deriving DecidableEq, Repr

namespace Stage

def next : Stage → SectionEvent → Option Stage
  | .own, .enter => some .entered
  | .entered, .stop => some .ended
  | .ended, .resume => some .own
  | .own, .resume => some .own
  | _, _ => none

def after (s : Stage) (es : List SectionEvent) : Option Stage := es.foldlM next s

end Stage

/-- The threads of the process that may execute an lthread. -/
inductive Thread
  | sched
  | compute (j : ℕ)
  deriving DecidableEq, Repr

/-- The lthread whose code runs on the thread of the scheduler: its context is not
saved there. -/
def Cpu.executes : Cpu → Option LtId
  | .run l | .ioAdd l _ | .leaving l => some l
  | .loop | .back _ | .computeAdd _ => none

inductive Spot
  | queue (j : ℕ)
  | thread (j : ℕ)
  | defer
  deriving DecidableEq, Repr

namespace World

def Executes (x : World) : Thread → LtId → Prop
  | .sched, l => x.cpu.executes = some l
  | .compute j, l => (x.compute j).pc = .working l

def Holds (x : World) : Spot → LtId → Prop
  | .queue j, l => l ∈ (x.compute j).lthreads
  | .thread j, l => l ∈ (x.compute j).pc.owned
  | .defer, l => l ∈ x.sched.defer

def Whereabouts (x : World) (l : LtId) : Stage → Prop
  | .own => ∀ j, ¬ x.Holds (.queue j) l ∧ ¬ x.Holds (.thread j) l
  | .entered => (∃! s, x.Holds s l) ∧ ¬ x.Holds .defer l ∧ ∀ j, (x.compute j).pc ≠ .ended l
  | .ended => (∃! s, x.Holds s l) ∧ (x.Holds .defer l ∨ ∃ j, (x.compute j).pc = .ended l)

def stops (x : World) (l : LtId) : Label → Bool
  | .compute j .stop => decide ((x.compute j).pc = .working l)
  | _ => false

def sectionEvent (x : World) (a : Label) (x' : World) (l : LtId) : Option SectionEvent :=
  if x.cpu = .run l ∧ x'.cpu = .leaving l then some .enter
  else if x.cpu = .loop ∧ x'.cpu = .run l then some .resume
  else if x.stops l a then some .stop
  else none

def noteSections (x : World) (a : Label) (x' : World) (t : LtId → List SectionEvent) :
    LtId → List SectionEvent :=
  fun l => t l ++ (x.sectionEvent a x' l).toList

def stage (x : World) (l : LtId) : Stage :=
  match (x.sched.lt l).ctx with
  | .compute j => if (x.compute j).pc = .ended l ∨ l ∈ x.sched.defer then .ended else .entered
  | _ => .own

end World

/-- The runs of the program with the section events of every lthread. -/
def sectionMachine : Machine (World × (LtId → List SectionEvent)) Label :=
  worldMachine.observe (fun _ => []) World.noteSections

end Lthr
