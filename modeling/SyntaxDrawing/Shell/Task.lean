import SyntaxDrawing.Shell.System

/-!
# What processes do

A thread is all that a process is still going to do: one act on the system after the other, with
waits between them. Threads are run by turns, and the clock goes on when all of them wait. A task is
a part of a thread that has a result.
-/

namespace SyntaxDrawing.Shell

/-- What a process is still going to do. What follows an act sees the system as it was before. -/
inductive Thread
  | ended
  | act (change : System → System) (next : System → Thread)
  | wait (isReady : System → Bool) (next : Thread)
  | rest (time : Nat) (next : Thread)
  | start (number : Nat) (child next : Thread)

namespace Thread

/-- How a turn of a thread leaves the system. `others` are the threads that have been started, and
`steps` those that have not been used. -/
structure Turn where
  system : System
  left : Option Thread
  others : List (Nat × Thread)
  steps : Nat

def advance (steps : Nat) (number : Nat) (s : System) (others : List (Nat × Thread)) (t : Thread) :
    Turn :=
  match steps, t with
  | 0, t => ⟨s, some t, others, 0⟩
  | steps + 1, .ended => ⟨s, none, others, steps⟩
  | steps + 1, .act change next =>
    let after := change s
    if after.isLive number then advance steps number after others (next s)
    else ⟨after, none, others, steps⟩
  | steps + 1, .wait isReady next =>
    if isReady s then advance steps number s others next
    else ⟨s, some (.wait isReady next), others, steps + 1⟩
  | steps + 1, .rest time next =>
    if time ≤ s.clock then advance steps number s others next
    else ⟨s, some (.rest time next), others, steps + 1⟩
  | steps + 1, .start child thread next =>
    advance steps number s (others ++ [(child, thread)]) next

/-- The most steps of one turn; so many steps take a millisecond. -/
def turnLength : Nat := 1000

/-- Gives each thread a turn. Threads of stopped processes are left out, and those of processes that
have ended are dropped. Returns how many steps have been made. -/
def round (s : System) : List (Nat × Thread) → System × List (Nat × Thread) × Nat
  | [] => (s, [], 0)
  | (number, t) :: threads =>
    match s.process? number with
    | none => round s threads
    | some p =>
      if p.isStopped then
        let (s, threads, steps) := round s threads
        (s, (number, t) :: threads, steps)
      else
        let turn := t.advance turnLength number s []
        let (s, threads, steps) := round turn.system threads
        let left := (turn.left.map fun t => (number, t)).toList
        (s, left ++ threads ++ turn.others, turnLength - turn.steps + steps)

def nextTime? (s : System) (threads : List (Nat × Thread)) : Option Nat :=
  let times := threads.filterMap fun (number, t) =>
    match t, s.process? number with
    | .rest time _, some p => if p.isStopped then none else some time
    | _, _ => none
  times.min?

/-- Runs threads until a condition holds of the system. Returns whether it came to hold before the
deadline. `steps` have been made since the clock has been set on. -/
def runRounds (fuel : Nat) (isOver : System → Bool) (deadline : Nat) (s : System)
    (threads : List (Nat × Thread)) (steps : Nat) : Bool × System :=
  match fuel with
  | 0 => (false, s)
  | fuel + 1 =>
    if isOver s then (true, s)
    else
      let (s, threads, more) := round s threads
      let steps := steps + more
      let time? :=
        if more = 0 then nextTime? s threads else some (s.clock + steps / turnLength)
      match time? with
      | none => (false, s)
      | some time =>
        if deadline ≤ time then (false, { s with clock := deadline })
        else runRounds fuel isOver deadline { s with clock := time } threads (steps % turnLength)

/-- Runs threads until a condition holds of the system. Every round takes a step at least or sets
the clock on, so that their number is bounded. -/
def runUntil (isOver : System → Bool) (deadline : Nat) (s : System)
    (threads : List (Nat × Thread)) : Bool × System :=
  runRounds ((turnLength + 2) * (deadline + 1)) isOver deadline s threads 0

end Thread

/-- A part of what a process does, which hands its result on to the rest. -/
def Task (α : Type) : Type :=
  (α → Thread) → Thread

namespace Task

instance : Monad Task where
  pure a := fun next => next a
  bind t f := fun next => t fun a => f a next

def answering {α : Type} (f : System → α × System) : Task α :=
  fun next => .act (fun s => (f s).2) fun s => next (f s).1

def observe : Task System :=
  fun next => .act id next

def wait (isReady : System → Bool) : Task Unit :=
  fun next => .wait isReady (next ())

def rest (time : Nat) : Task Unit :=
  fun next => .rest time (next ())

def never {α : Type} : Task α :=
  fun _ => .wait (fun _ => false) .ended

def start (number : Nat) (child : Task Unit) : Task Unit :=
  fun next => .start number (child fun _ => .ended) (next ())

end Task

end SyntaxDrawing.Shell
