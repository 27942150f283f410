import WordStack.Machine.Run

/-! # Requests to a machine

Everything that can be asked of a machine, as data: so a history of a machine is a list of
requests. -/

namespace WordStack.Machine

/-- A request to a machine. -/
inductive Call where
  | load (code : Bytecode)
  | step
  | run
  | execute (code : Bytecode)
  /-- An operation on the stack from outside. -/
  | stack (call : Stack.Call)

/-- What a machine answers when it does not fault. -/
inductive Reply where
  | done
  | status (status : Status)
  | word (word : Word)

/-- A run has nothing to answer. -/
def Reply.ofRun : EStateM.Result Fault Machine Unit → EStateM.Result Fault Machine Reply
  | .ok _ after => .ok .done after
  | .error fault after => .error fault after

/-- Carries out a request. -/
def Call.perform : Call → EStateM Fault Machine Reply
  | .load code, m => .ok .done (m.load code)
  | .step, m => (Reply.status <$> Machine.step) m
  | .run, m => Reply.ofRun m.run
  | .execute code, m => Reply.ofRun (m.execute code)
  | .stack call, m =>
    match call.perform m.stack with
    | .ok word? after => .ok (word?.elim .done .word) { m with stack := after }
    | .error fault after => .error fault { m with stack := after }

end WordStack.Machine
