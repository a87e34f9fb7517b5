import Tarcoin.Foundations.AsyncQueue
import Tarcoin.Foundations.Utf8
import Tarcoin.Pool.Server

/-! A `data` event takes the complete lines from the buffer of its connection and handles them one
after the other, waiting for submits; the next event does not wait for it. -/
namespace Tarcoin.Pool
open Async (Mark Only Leads Settled served marksOf)

/-- What an event takes from the buffer, and what it leaves there. -/
def takeMessages (buffer data : Text) : List Text × Text :=
  let buffer := buffer ++ data
  if '\n' ∉ buffer then ([], buffer)
  else
    let messages := buffer.splitOn '\n'
    (messages.dropLast, messages.getLastD [])

def skipBlank (messages : List Text) : List Text := messages.filter fun msg => trim msg ≠ []

/-- The process with the buffers of its connections and the functions that nobody waits for. -/
structure Wire where
  pool : World
  buffers : ℕ → Text
  detached : List (Option (Answer → PoolM Unit))

/-- The outputs of the process, the calls of the functions that nobody waits for, and marks where a
message is parsed and where its turn of the loop ends. -/
inductive WireOutput
  | pool (o : Output)
  | asked (c : Call)
  | mark (socket : ℕ) (m : Mark Text)

/-- What the process reacts to; `wake` is the answer for a function that nobody waits for. -/
inductive WireInput
  | connect (server : Server)
  | data (socket : ℕ) (chunk : List UInt8)
  | vardiff (socket timer : ℕ)
  | close (socket : ℕ)
  | refresh (rounds : ℕ)
  | clock (now : ℕ)
  | wake (i : ℕ) (answer : Answer)

abbrev WireM := Async Wire Call Answer WireOutput JsError

def wireHost : Async.Host World Call Answer Output Wire Call Answer WireOutput where
  get := Wire.pool
  set := fun w pool => { w with pool }
  call := id
  answer := id
  output := .pool

def Wire.park (k : Answer → PoolM Unit) (w : Wire) : Wire :=
  { w with detached := w.detached ++ [some k] }

def Wire.leave (socket : ℕ) (rest : Text) (w : Wire) : Wire :=
  { w with buffers := Function.update w.buffers socket rest }

def Wire.initial (w : World) : Wire := ⟨w, fun _ => [], []⟩

/-- The cases of `switch (message.method)`. -/
def methodOf (message : Json) : Option Method :=
  match member "method" (some message) with
  | some (.str s) =>
    if s = "mining.configure".toList then some .configure
    else if s = "mining.subscribe".toList then some .subscribe
    else if s = "mining.authorize".toList then some .authorize
    else if s = "mining.submit".toList then some .submit
    else none
  | _ => none

def requestOf (message : Json) : Request :=
  ⟨member "id" (some message), member "params" (some message)⟩

section Data
-- `JSON.parse`, which a message may make throw
variable (rt : Runtime) (parse : Text → Except JsError Json)

def handleMessage (socket : ℕ) (msg : Text) : WireM Unit :=
  match parse msg with
  | .error _ => pure ()
  | .ok message =>
    match methodOf message with
    | none => pure ()
    | some .submit => (awaited (receive rt socket .submit (requestOf message))).embed wireHost
    | some method =>
      (receive rt socket method (requestOf message)).detach wireHost Wire.park .asked

def onData (socket : ℕ) (chunk : List UInt8) : WireM Unit := do
  let w ← Async.get
  let (messages, rest) := takeMessages (w.buffers socket) (Utf8.decode chunk)
  Async.modify (Wire.leave socket rest)
  Async.serve (.mark socket) (handleMessage rt parse socket) (skipBlank messages)

def wake (i : ℕ) (answer : Answer) : WireM Unit := do
  match (← Async.get).detached[i]? with
  | some (some k) => do
    Async.modify fun w => { w with detached := w.detached.set i none }
    (k answer).embed wireHost
  | _ => pure ()

def startWire : WireInput → WireM Unit
  | .connect server => (connect server).embed wireHost
  | .data socket chunk => onData rt parse socket chunk
  | .vardiff socket timer => (vardiff rt socket timer).embed wireHost
  | .close socket => (close socket).embed wireHost
  | .refresh rounds => (refreshBlockTemplate rt rounds).embed wireHost
  | .clock now => (Async.modify fun w => { w with now } : PoolM Unit).embed wireHost
  | .wake i answer => wake i answer

abbrev WireProcess := Async.System Wire Call Answer WireOutput JsError WireInput

def runWire (w : World) (moves : List (Async.Move Answer WireInput)) : WireProcess :=
  Async.run (startWire rt parse) (.initial (.initial w)) moves

end Data

def WireOutput.markOf (socket : ℕ) : WireOutput → Option (Mark Text)
  | .mark s m => if s = socket then some m else none
  | _ => none

def received (socket : ℕ) (moves : List (Async.Move Answer WireInput)) : List UInt8 :=
  moves.flatMap fun
    | .fire (.data s chunk) => if s = socket then chunk else []
    | _ => []

/-- The messages of a stream: its lines that are not blank, as far as they have ended. -/
def messagesOf (text : Text) : List Text := skipBlank (text.splitOn '\n').dropLast

def Wire.completed (w : Wire) (socket : ℕ) (chunk : List UInt8) : List Text :=
  skipBlank (takeMessages (w.buffers socket) (Utf8.decode chunk)).1

/-- No event of the connection cuts a character in two, and none completes a message while an
earlier one is being handled. -/
def Prompt (socket : ℕ) (w : Wire) (l : List WireOutput) : WireInput → Prop
  | .data s chunk => s = socket → (∃ text, chunk = Utf8.encode text) ∧
      (w.completed socket chunk ≠ [] → Settled (l.filterMap (WireOutput.markOf socket)))
  | _ => True

section Lines

theorem splitOn_append (c : Char) (s t : Text) :
    (s ++ t).splitOn c = (s.splitOn c).dropLast ++ ((s.splitOn c).getLastD [] ++ t).splitOn c := by
  induction s with
  | nil => rfl
  | cons x s ih =>
    simp only [List.splitOn, List.cons_append, List.splitOnP_cons_eq_if_modifyHead] at ih ⊢
    obtain ⟨line, lines, hlines⟩ := List.exists_cons_of_ne_nil (List.splitOnP_ne_nil (· == c) s)
    rw [hlines] at ih ⊢
    split_ifs with hx
    · rw [ih]
      cases lines <;> simp
    · cases lines with
      | nil => simp [ih, List.splitOnP_cons_eq_if_modifyHead, hx]
      | cons next lines => simp [ih]

theorem takeMessages_eq (buffer data : Text) :
    takeMessages buffer data =
      (((buffer ++ data).splitOn '\n').dropLast, ((buffer ++ data).splitOn '\n').getLastD []) := by
  rw [takeMessages]
  split_ifs with hline
  · rfl
  · rw [List.splitOn_eq_singleton hline]
    rfl

theorem messagesOf_append (s t : Text) :
    messagesOf (s ++ t) =
      messagesOf s ++ skipBlank (takeMessages ((s.splitOn '\n').getLastD []) t).1 := by
  rw [messagesOf, splitOn_append, List.dropLast_append_of_ne_nil (List.splitOn_ne_nil _ _),
    skipBlank, List.filter_append, takeMessages_eq]
  rfl

theorem lastLine_append (s t : Text) :
    ((s ++ t).splitOn '\n').getLastD [] = (takeMessages ((s.splitOn '\n').getLastD []) t).2 := by
  rw [splitOn_append, takeMessages_eq]
  simp [List.getLastD_eq_getLast?, List.getLast?_append_of_ne_nil _ (List.splitOn_ne_nil _ _)]

end Lines

section Order
variable (rt : Runtime) (parse : Text → Except JsError Json) (socket : ℕ)

def SameBuffer (w w' : Wire) : Prop := w'.buffers socket = w.buffers socket

instance : Std.Refl (SameBuffer socket) := ⟨fun _ => rfl⟩

instance : IsTrans Wire (SameBuffer socket) := ⟨fun _ _ _ h h' => h'.trans h⟩

theorem only_embed_wire {α : Type} (t : PoolM α) (w : Wire) :
    Only (SameBuffer socket) (Async.Unmarked (WireOutput.markOf socket)) (t.embed wireHost) w :=
  Async.only_embed (fun _ _ => rfl) (fun _ => rfl) t w

theorem only_handleMessage (s : ℕ) (msg : Text) (w : Wire) :
    Only (SameBuffer socket) (Async.Unmarked (WireOutput.markOf socket))
      (handleMessage rt parse s msg) w := by
  have hdetach (t : PoolM Unit) : Only (SameBuffer socket)
      (Async.Unmarked (WireOutput.markOf socket))
      (t.detach wireHost Wire.park .asked : WireM Unit) w := by
    apply Async.only_detach
    · exact fun _ _ => rfl
    · exact fun _ => rfl
    · exact fun _ _ => rfl
    · exact fun _ => rfl
  rw [handleMessage]
  split
  · trivial
  · split
    · trivial
    · exact only_embed_wire socket _ w
    · exact hdetach _

theorem only_serve {s : ℕ} (hs : s ≠ socket) (messages : List Text) (w : Wire) :
    Only (SameBuffer socket) (Async.Unmarked (WireOutput.markOf socket))
      (Async.serve (.mark s) (handleMessage rt parse s) messages) w := by
  have hmark (m : Mark Text) : Async.Unmarked (WireOutput.markOf socket) (.mark s m) := if_neg hs
  induction messages generalizing w with
  | nil => trivial
  | cons msg messages ih =>
    exact ⟨hmark _, (only_handleMessage rt parse socket s msg w).andThen fun _ w' => ⟨hmark _, ih w'⟩⟩

def WireInput.feeds (socket : ℕ) : WireInput → Prop
  | .data s _ => s = socket
  | _ => False

theorem only_startWire {input : WireInput} (hinput : ¬ input.feeds socket) (w : Wire) :
    Only (SameBuffer socket) (Async.Unmarked (WireOutput.markOf socket))
      (startWire rt parse input) w := by
  cases input with
  | connect server => exact only_embed_wire socket _ w
  | data s chunk =>
    exact ⟨Function.update_of_ne (Ne.symm hinput) _ _, only_serve rt parse socket hinput _ _⟩
  | vardiff s timer => exact only_embed_wire socket _ w
  | close s => exact only_embed_wire socket _ w
  | refresh rounds => exact only_embed_wire socket _ w
  | clock now => exact only_embed_wire socket _ w
  | wake i answer =>
    change Only _ _ (match w.detached[i]? with
      | some (some k) => (Async.modify fun w => { w with detached := w.detached.set i none }) >>=
          fun _ => ((k answer).embed wireHost : WireM Unit)
      | _ => pure ()) w
    split
    · exact Only.modify rfl (only_embed_wire socket _ _)
    · trivial

/-- What has arrived is a text, and its last line, so far as it goes, is in the buffer. -/
def Buffered (moves : List (Async.Move Answer WireInput)) (w : Wire) : Prop :=
  ∃ text, received socket moves = Utf8.encode text ∧
    w.buffers socket = (text.splitOn '\n').getLastD []

theorem received_concat (moves : List (Async.Move Answer WireInput)) (m : Async.Move Answer WireInput) :
    received socket (moves ++ [m]) = received socket moves ++ received socket [m] :=
  List.flatMap_append

/-- The messages of a connection are a queue of jobs that its events serve. -/
theorem messages_queue : Async.Queue (startWire rt parse) (Prompt socket) (.mark socket)
    (WireOutput.markOf socket) (handleMessage rt parse socket) (SameBuffer socket)
    (WireInput.feeds socket)
    (fun w input => match input with
      | .data _ chunk => w.completed socket chunk
      | _ => [])
    (fun moves => messagesOf (Utf8.decode (received socket moves))) (Buffered socket) where
  unmark_mark m := if_pos rfl
  only_handle := only_handleMessage rt parse socket socket
  only_start _ w hinput := only_startWire rt parse socket hinput w
  write _ w w' hbuffered hsame := by
    obtain ⟨text, hreceived, hbuffer⟩ := hbuffered
    exact ⟨text, hreceived, hsame.trans hbuffer⟩
  other moves m hm := by
    have hnone : received socket [m] = [] := by
      cases m with
      | fire e =>
        cases e with
        | data s chunk => simp [received, show s ≠ socket from hm _ rfl]
        | _ => rfl
      | resume i r => rfl
    rw [received_concat, hnone, List.append_nil]
    refine ⟨rfl, fun w hbuffered => ?_⟩
    rwa [Buffered, received_concat, hnone, List.append_nil]
  arrive moves w l input hfeeds hprompt hbuffered := by
    cases input with
    | data s chunk =>
      obtain rfl : s = socket := hfeeds
      obtain ⟨⟨added, rfl⟩, -⟩ := hprompt rfl
      obtain ⟨text, hreceived, hbuffer⟩ := hbuffered
      have hall : received s (moves ++ [.fire (.data s (Utf8.encode added))]) =
          Utf8.encode (text ++ added) := by
        rw [received_concat, hreceived, Utf8.encode_append]
        simp [received]
      rw [hall, hreceived, Utf8.decode_encode, Utf8.decode_encode, messagesOf_append]
      dsimp only
      rw [Wire.completed, Utf8.decode_encode, hbuffer]
      refine ⟨rfl, w.leave s (takeMessages (w.buffers s) added).2, ⟨text ++ added, hall, ?_⟩, ?_⟩
      · rw [lastLine_append, ← hbuffer]
        exact Function.update_self _ _ _
      · have hserve : startWire rt parse (.data s (Utf8.encode added)) =
            onData rt parse s (Utf8.encode added) := rfl
        apply Leads.get
        rw [Utf8.decode_encode, hbuffer]
        exact Leads.modify (.refl _ _)
    | _ => exact hfeeds.elim
  settled w l input hfeeds hprompt hsome := by
    cases input with
    | data s chunk => exact (hprompt hfeeds).2 hsome
    | _ => exact hfeeds.elim

end Order

/-- In every run in which no event cuts a character in two or completes a message while an earlier one
is being handled, the messages of a connection's stream are parsed and handled one after the other,
and when no event of the connection waits, all of them have been. -/
theorem requests_in_order (rt : Runtime) (parse : Text → Except JsError Json) (w : World)
    (moves : List (Async.Move Answer WireInput)) (socket : ℕ) (text : Text)
    (hprompt : Async.LegalMoves (startWire rt parse) (Prompt socket) (.initial (.initial w)) moves)
    (htext : received socket moves = Utf8.encode text) :
    Async.InOrder (messagesOf text) ((runWire rt parse w moves).marks (WireOutput.markOf socket)) ∧
      ((∀ t ∈ (runWire rt parse w moves).threads, t.input.feeds socket → ∃ x, t.rest = .done x) →
        (runWire rt parse w moves).marks (WireOutput.markOf socket) = served (messagesOf text)) := by
  have hnil : Buffered socket [] (.initial w) := ⟨[], rfl, rfl⟩
  obtain ⟨-, server, hstands, -⟩ := (messages_queue rt parse socket).run hnil rfl hprompt
  dsimp only at hstands
  rw [htext, Utf8.decode_encode] at hstands
  exact ⟨hstands.inOrder, hstands.served_of_done⟩

def subscribeLine : Text := "\x7b\"id\":1,\"method\":\"mining.subscribe\"\x7d".toList

def submitLine : Text :=
  "\x7b\"id\":2,\"method\":\"mining.submit\",\"params\":[\"w\",\"00000000\",\"0\",\"0\",\"0\"]\x7d".toList

def parseLine (msg : Text) : Except JsError Json :=
  if msg = subscribeLine then
    .ok (.obj [("id".toList, .num "1".toList), ("method".toList, .str "mining.subscribe".toList)])
  else if msg = submitLine then
    .ok (.obj [("id".toList, .num "2".toList), ("method".toList, .str "mining.submit".toList),
      ("params".toList, .arr [.str "w".toList, .str "00000000".toList, .str "0".toList,
        .str "0".toList, .str "0".toList])])
  else .error .typeError

def wireMoves : List (Async.Move Answer WireInput) :=
  [.fire (.connect .pool), .fire (.refresh 0), .resume 1 (.template (some (.first [])))]

def runLines (chunks : List (List UInt8)) : WireProcess :=
  runWire .constant parseLine (.fresh true)
    (wireMoves ++ chunks.map fun chunk => .fire (.data 0 chunk))

/-- Both lines in one piece are handled in order; the submit waits for its bookkeeping. -/
theorem requests_in_order_one_piece :
    Async.InOrder [subscribeLine, submitLine]
      ((runLines [Utf8.encode (subscribeLine ++ '\n' :: submitLine ++ ['\n'])]).marks
        (WireOutput.markOf 0)) := by
  have hmessages : messagesOf (subscribeLine ++ '\n' :: submitLine ++ ['\n']) =
      [subscribeLine, submitLine] := by decide
  refine (requests_in_order .constant parseLine (.fresh true) _ 0
    (subscribeLine ++ '\n' :: submitLine ++ ['\n']) ?_ ?_).1
  · refine ⟨?_, ?_, ?_, ?_, trivial⟩
    · intro e he
      cases he
      trivial
    · intro e he
      cases he
      trivial
    · intro e he
      nomatch he
    · intro e he
      cases he
      refine fun _ => ⟨⟨_, rfl⟩, fun _ => ⟨[], ?_⟩⟩
      decide
  · decide

/-- A letter that is cut in two is parsed as two others; and a line that comes while the submit
before it waits for its bookkeeping is handled before that one is. -/
theorem requests_out_of_order :
    (∃ first second : List UInt8, first ++ second = Utf8.encode "\"é\"\n".toList ∧
      ¬ Async.InOrder ["\"é\"".toList] ((runLines [first, second]).marks (WireOutput.markOf 0))) ∧
    ¬ Async.InOrder [submitLine, subscribeLine]
      ((runLines [Utf8.encode (submitLine ++ ['\n']), Utf8.encode (subscribeLine ++ ['\n'])]).marks
        (WireOutput.markOf 0)) := by
  constructor
  · refine ⟨[0x22, 0xc3], [0xa9, 0x22, 0x0a], by decide, fun h => ?_⟩
    have hserved := h.eq_served (show _ = some (Mark.finished
      ['"', Utf8.replacement, Utf8.replacement, '"']) by decide)
    exact absurd hserved (by decide)
  · intro h
    have hserved := h.eq_served (show _ = some (Mark.finished subscribeLine) by decide)
    exact absurd hserved (by decide)

end Tarcoin.Pool
