import Mathlib.Tactic

/-! Asynchronous functions that share a state and run one at a time. A task keeps the processor
until it waits for the answer to a call; then any other task may run. -/

inductive Async (σ C R O ε α : Type) : Type
  | pure (a : α)
  | throw (e : ε)
  | read (k : σ → Async σ C R O ε α)
  | write (s : σ) (k : Async σ C R O ε α)
  | emit (o : O) (k : Async σ C R O ε α)
  | await (c : C) (k : R → Async σ C R O ε α)

namespace Async

variable {σ C R O ε α β : Type}

def ofExcept : Except ε α → Async σ C R O ε α
  | .ok a => pure a
  | .error e => throw e

/-- Go on from the end of a task, whichever way it ended. -/
def andThen : Async σ C R O ε α → (Except ε α → Async σ C R O ε β) → Async σ C R O ε β
  | pure a, f => f (.ok a)
  | throw e, f => f (.error e)
  | read k, f => read fun s => (k s).andThen f
  | write s k, f => write s (k.andThen f)
  | emit o k, f => emit o (k.andThen f)
  | await c k, f => await c fun r => (k r).andThen f

def bind (t : Async σ C R O ε α) (f : α → Async σ C R O ε β) : Async σ C R O ε β :=
  t.andThen fun
    | .ok a => f a
    | .error e => throw e

instance : Monad (Async σ C R O ε) where
  pure := pure
  bind := bind

def catching (t : Async σ C R O ε α) (h : ε → Async σ C R O ε α) : Async σ C R O ε α :=
  t.andThen fun
    | .ok a => pure a
    | .error e => h e

/-- Wait for a task that was called: its end, too, is a point where other tasks may run. -/
def settle (tick : C) (t : Async σ C R O ε α) : Async σ C R O ε α :=
  t.andThen fun x => await tick fun _ => ofExcept x

def get : Async σ C R O ε σ := read pure

def modify (f : σ → σ) : Async σ C R O ε Unit := read fun s => write (f s) (pure ())

def output (o : O) : Async σ C R O ε Unit := emit o (pure ())

/-- How the tasks of one system become tasks of another: where their state stands in the other
state, and what their calls, answers and outputs are there. -/
structure Host (σ C R O σ' C' R' O' : Type) where
  get : σ' → σ
  set : σ' → σ → σ'
  call : C → C'
  answer : R' → R
  output : O → O'

def embed {σ' C' R' O' : Type} (h : Host σ C R O σ' C' R' O') :
    Async σ C R O ε α → Async σ' C' R' O' ε α
  | pure a => pure a
  | throw e => throw e
  | read k => read fun s' => (k (h.get s')).embed h
  | write s k => read fun s' => write (h.set s' s) (k.embed h)
  | emit o k => emit (h.output o) (k.embed h)
  | await c k => await (h.call c) fun r => (k (h.answer r)).embed h

inductive Event (C R O : Type)
  | emitted (o : O)
  | called (c : C)
  | answered (c : C) (r : R)

inductive Rest (σ C R O ε α : Type)
  | done (x : Except ε α)
  | waiting (c : C) (k : R → Async σ C R O ε α)

/-- One turn: the state it leaves, what is observed of it, and where the task stands then. -/
def advance : Async σ C R O ε α → σ → σ × List (Event C R O) × Rest σ C R O ε α
  | pure a, s => (s, [], .done (.ok a))
  | throw e, s => (s, [], .done (.error e))
  | read k, s => (k s).advance s
  | write s k, _ => k.advance s
  | emit o k, s =>
    let turn := k.advance s
    (turn.1, .emitted o :: turn.2.1, turn.2.2)
  | await c k, s => (s, [.called c], .waiting c k)

/-- A task with the input it was started for and the state it was started in. -/
structure Thread (σ C R O ε E : Type) where
  input : E
  origin : σ
  rest : Rest σ C R O ε Unit

structure System (σ C R O ε E : Type) where
  world : σ
  log : List (ℕ × Event C R O)
  threads : List (Thread σ C R O ε E)

/-- What may happen next: an input starts a task, or a call of a task is answered. -/
inductive Move (R E : Type)
  | fire (e : E)
  | resume (i : ℕ) (r : R)

section Run
variable {E : Type} (start : E → Async σ C R O ε Unit)

def System.initial (s : σ) : System σ C R O ε E := ⟨s, [], []⟩

def fireStep (sys : System σ C R O ε E) (e : E) : System σ C R O ε E :=
  let turn := (start e).advance sys.world
  { world := turn.1
    log := sys.log ++ turn.2.1.map (Prod.mk sys.threads.length)
    threads := sys.threads ++ [⟨e, sys.world, turn.2.2⟩] }

def resumeStep (sys : System σ C R O ε E) (i : ℕ) (t : Thread σ C R O ε E) (c : C)
    (k : R → Async σ C R O ε Unit) (r : R) : System σ C R O ε E :=
  let turn := (k r).advance sys.world
  { world := turn.1
    log := sys.log ++ (.answered c r :: turn.2.1).map (Prod.mk i)
    threads := sys.threads.set i { t with rest := turn.2.2 } }

/-- An answer for a task that does not wait changes nothing. -/
def step (sys : System σ C R O ε E) : Move R E → System σ C R O ε E
  | .fire e => fireStep start sys e
  | .resume i r =>
    match sys.threads[i]? with
    | some ⟨e, s, .waiting c k⟩ => resumeStep sys i ⟨e, s, .waiting c k⟩ c k r
    | _ => sys

def run (sys : System σ C R O ε E) (moves : List (Move R E)) : System σ C R O ε E :=
  moves.foldl (step start) sys

end Run

/-- What is observed of task `i`. -/
def own (i : ℕ) (log : List (ℕ × Event C R O)) : List (Event C R O) :=
  log.filterMap fun p => if p.1 = i then some p.2 else none

def Event.output? : Event C R O → Option O
  | .emitted o => some o
  | _ => none

def outputs (log : List (ℕ × Event C R O)) : List O := log.filterMap fun p => p.2.output?

end Async
