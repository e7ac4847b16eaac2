import ArithMachine.Machine.Session
import ArithMachine.Proofs.Reading

/-!
# Sessions

A call on a machine takes up the log of the observer and nothing else.  What it
reports and what it gives back are therefore known from the call and from the
limit: `Call.events` and `Call.reply`.  A session is the list of its calls, one
reply for each and their events one after the other, for any observer whatever.

The trace records of a session are the recorded events, each rendered by
`TraceRecord.ofEvent`.  The rendering keeps what was read from the bytes: tags and
operands can be read back from the texts of a record.
-/

namespace ArithMachine

section Sessions

/-- What was read from the bytes: one of them in place of a tag, or an operand behind a tag. -/
inductive Finding where
  | tag (offset : Nat) (byte : UInt8)
  | operand (offset : Nat) (operand : Operand)
deriving DecidableEq, Repr

/-- What an event tells to have been read. -/
def Event.finding? : Event → Option Finding
  | opcode offset byte => some (.tag offset byte)
  | immediate offset _ operand => some (.operand offset operand)
  | finish _ => none

namespace TraceRecord

/-- The operand that is written as the hexadecimal text of its bytes. -/
def readOperand? (text : String) : Option Operand :=
  match Hex.leadingBytes (text.toList ++ [' ']) with
  | [b0, b1, b2, b3] => some ⟨b0, b1, b2, b3⟩
  | _ => none

/-- What a record tells to have been read, by the texts that it names. -/
def finding? (r : TraceRecord) : Option Finding := do
  let place ← r.fields.lookup "offset"
  let offset ← Decimal.digits? place.toList
  match r.fields.lookup "opcode", r.fields.lookup "bytes" with
  | some code, _ =>
      let byte ← Decimal.digits? code.toList
      some (.tag offset (.ofNat byte))
  | none, some text =>
      let operand ← readOperand? text
      some (.operand offset operand)
  | none, none => none

theorem readOperand?_spaced (operand : Operand) :
    readOperand? (String.ofList (Hex.spaced operand.toList)) =
      some operand := by
  rw [readOperand?, String.toList_ofList, Hex.leadingBytes_spaced]
  rfl

/-- Tags and operands can be read back from the record of an event. -/
theorem finding?_ofEvent (event : Event) :
    (ofEvent event).finding? = event.finding? := by
  cases event with
  | opcode offset byte =>
      simp [ofEvent, finding?, List.lookup, Decimal.digits?_toDigits,
        Event.finding?]
  | immediate offset value operand =>
      simp [ofEvent, finding?, List.lookup, Decimal.digits?_toDigits,
        readOperand?_spaced, Event.finding?]
  | finish outcome => rfl

end TraceRecord

namespace Call

/-- What a call reports. -/
def events (config : Config) : Call → List Event
  | execute bytes =>
      (Machine.transcript config bytes).events ++
        [.finish (.ofAnswer (Machine.transcript config bytes).answer)]
  | tryExecute bytes => (Machine.transcript config bytes).events

/-- What a call gives back. -/
def reply (config : Config) : Call → Reply
  | execute bytes =>
      .outcome (.ofAnswer (Machine.transcript config bytes).answer)
  | tryExecute bytes => .answer (Machine.transcript config bytes).answer

end Call

namespace Machine

variable {σ : Type}

/-- A call adds its events to the log, and gives its reply. -/
theorem call_eq (m : Machine σ) (log : σ) (request : Call) :
    m.call log request =
      (m.report log (request.events m.config),
        request.reply m.config) := by
  cases request with
  | tryExecute bytes =>
      rw [call, tryExecute_eq_transcript]
      rfl
  | execute bytes =>
      rw [call, execute, tryExecute_eq_transcript, Call.events,
        report_append]
      rfl

/-- A session adds the events of its calls to the log, and gives their replies. -/
theorem session_eq (m : Machine σ) (log : σ) (requests : List Call) :
    m.session log requests =
      (m.report log (requests.flatMap (Call.events m.config)),
        requests.map (Call.reply m.config)) := by
  induction requests generalizing log with
  | nil => rfl
  | cons request requests ih =>
      rw [session, call_eq, List.flatMap_cons, report_append]
      dsimp only
      rw [ih, List.map_cons]

/-- The machine that keeps the trace records of its runs. -/
def tracing (config : Config) : Machine (Array TraceRecord) :=
  ⟨config, .tracer⟩

/-- A tracer keeps the records of what is reported. -/
theorem toList_report_tracing
    (config : Config) (log : Array TraceRecord) (events : List Event) :
    ((tracing config).report log events).toList =
      log.toList ++ events.map TraceRecord.ofEvent := by
  induction events generalizing log with
  | nil => exact (List.append_nil _).symm
  | cons event events ih =>
      rw [show (tracing config).report log (event :: events) =
        (tracing config).report (log.push (.ofEvent event)) events
        from rfl, ih]
      simp

/-- What a recorder keeps of one call. -/
theorem toList_call_recording (config : Config) (request : Call) :
    ((recording config).call #[] request).1.toList =
      request.events config := by
  rw [call_eq, toList_report_recording]
  rfl

/--
Observers do not influence runs, and calls do not influence one another.

In a session with any observer and from any log on, each call gives the reply that
it gives alone on a machine without observation, and the log is that of the events
of the calls, in the order of the calls.  The events of a call are those that are
recorded when it is made alone.

A recorder keeps the events of all calls, and a tracer the records of the same
events in the same order.  A tag is rendered as a trace of its offset and its byte
in decimal, an operand as a trace of its offset, the text of its value and its bytes,
two lowercase digits each with a blank between, and an outcome as a message for
debugging.  From the records of a session the same tags and operands are read as
from its events.
-/
theorem session_independent (config : Config) (requests : List Call) :
    let own (request : Call) : List Event :=
      ((recording config).call #[] request).1.toList
    let alone (request : Call) : Reply :=
      ((Machine.mk config .silent).call () request).2
    let events := ((recording config).session #[] requests).1.toList
    let records := ((tracing config).session #[] requests).1.toList
    (∀ {σ : Type} (observer : Observer σ) (log : σ),
      (Machine.mk config observer).session log requests =
        ((requests.flatMap own).foldl observer.notify log,
          requests.map alone)) ∧
    events = requests.flatMap own ∧
    records = events.map TraceRecord.ofEvent ∧
    (∀ (offset : Nat) (byte : UInt8),
      TraceRecord.ofEvent (.opcode offset byte) =
        ⟨.trace, "decoded opcode",
          [("offset", toString offset), ("opcode", toString byte.toNat)]⟩) ∧
    (∀ (offset : Nat) (value : Value) (operand : Operand),
      ∃ text : String,
        TraceRecord.ofEvent (.immediate offset value operand) =
          ⟨.trace, "immediate value",
            [("offset", toString offset), ("value", value.text),
              ("bytes", text)]⟩ ∧
        text.toList =
          [' '].intercalate (operand.toList.map Hex.byte) ∧
        Hex.leadingBytes (text.toList ++ [' ']) = operand.toList) ∧
    (∀ outcome : Outcome,
      (TraceRecord.ofEvent (.finish outcome)).level = .debug) ∧
    (∀ b : UInt8,
      (Hex.byte b).length = 2 ∧
        ∀ c ∈ Hex.byte b, c ∈ "0123456789abcdef".toList) ∧
    records.filterMap TraceRecord.finding? =
      events.filterMap Event.finding? := by
  intro own alone events records
  have hown : requests.flatMap own = requests.flatMap (Call.events config) :=
    List.flatMap_congr fun request _ => toList_call_recording config request
  have halone : requests.map alone = requests.map (Call.reply config) :=
    List.map_congr_left fun request _ => by
      simp only [alone, call_eq]
  have hevents : events = requests.flatMap (Call.events config) := by
    simp only [events, session_eq, toList_report_recording]
    rfl
  have hrecords : records = events.map TraceRecord.ofEvent := by
    rw [hevents]
    simp only [records, session_eq, toList_report_tracing]
    rfl
  refine ⟨?_, ?_, hrecords, ?_, ?_, ?_, ?_, ?_⟩
  · intro σ observer log
    rw [session_eq, hown, halone]
    rfl
  · rw [hevents, hown]
  · intro offset byte
    rfl
  · intro offset value operand
    refine ⟨String.ofList (Hex.spaced operand.toList), rfl, ?_, ?_⟩
    · rw [String.toList_ofList, Hex.spaced]
    · rw [String.toList_ofList, Hex.leadingBytes_spaced]
  · intro outcome
    rfl
  · intro b
    exact ⟨rfl, fun c hmem => Hex.mem_digits_of_mem_byte hmem⟩
  · rw [hrecords, List.filterMap_map]
    exact List.filterMap_congr fun event _ =>
      TraceRecord.finding?_ofEvent event

/-- The value that a failing call leaves on its stack is not there for the next call. -/
example :
    ((recording ⟨1⟩).session #[]
        [.tryExecute [2, 0, 0, 160, 64], .tryExecute [1]]).2 =
      [.answer (.error .missingReturn), .answer (.ok none)] := by
  cbv

end Machine

end Sessions

end ArithMachine
