import WordStack.Fault
import WordStack.Word

/-! # The stack

A stack holds at most `capacity` words. Places are counted from the top, which has index zero.

An operation is an `Action`: it takes the stack, and either gives a result and the stack after it,
or a fault and the stack that it leaves behind. Each operation here leaves the stack as it was when
it faults; of actions that are built from several, the effects before the fault stay. -/

namespace WordStack

/-- **A bounded stack.** The words are kept from the bottom to the top. -/
structure Stack where
  /-- The words, the top last. -/
  words : Array Word := #[]
  /-- How many words the stack may hold. -/
  capacity : Nat
  deriving DecidableEq

namespace Stack

/-- The capacity of a stack for which none is chosen. -/
def defaultCapacity : Nat := 1024

/-- The number of words. -/
def size (s : Stack) : Nat := s.words.size

/-- The words from the top to the bottom. -/
def toList (s : Stack) : List Word := s.words.toList.reverse

/-- An operation on the stack that can fault. -/
abbrev Action := EStateM Fault Stack

/-! ## Operations -/

/-- Puts a word on top, if there is room. -/
def push (word : Word) : Action Unit := fun s =>
  if s.size < s.capacity then .ok () { s with words := s.words.push word }
  else .error (.stackOverflow s.capacity) s

/-- Removes the top and gives it. -/
def pop : Action Word := fun s =>
  match s.words.back? with
  | some word => .ok word { s with words := s.words.pop }
  | none => .error .stackUnderflow s

/-- Gives the top. -/
def top : Action Word := fun s =>
  match s.words.back? with
  | some word => .ok word s
  | none => .error .stackUnderflow s

/-- Gives the word at an index. -/
def elementAt (index : Nat) : Action Word := fun s =>
  if h : index < s.words.size then .ok (s.words[s.words.size - 1 - index]) s
  else .error (.indexOutOfRange index s.words.size) s

/-- Puts a copy of the word at an index on top. An index out of range is reported even when the
stack is full. -/
def duplicate (index : Nat) : Action Unit := do
  push (← elementAt index)

/-- Exchanges the top with the word at an index. -/
def swap (index : Nat) : Action Unit := fun s =>
  if h : index < s.words.size then
    let words := s.words.swap (s.words.size - 1 - index) (s.words.size - 1) (by omega) (by omega)
    .ok () { s with words }
  else .error (.indexOutOfRange index s.words.size) s

/-! ## Operations as data -/

/-- One operation, with its arguments. -/
inductive Call where
  | push (word : Word)
  | pop
  | top
  | elementAt (index : Nat)
  | duplicate (index : Nat)
  | swap (index : Nat)

/-- Carries out an operation. Those that ask for a word give it. -/
def Call.perform : Call → Action (Option Word)
  | push word => (fun _ => none) <$> Stack.push word
  | pop => some <$> Stack.pop
  | top => some <$> Stack.top
  | elementAt index => some <$> Stack.elementAt index
  | duplicate index => (fun _ => none) <$> Stack.duplicate index
  | swap index => (fun _ => none) <$> Stack.swap index

end Stack

end WordStack
