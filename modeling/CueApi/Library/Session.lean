import Mathlib.Data.List.Basic

/-! A database session over one transaction. Objects that were added are flushed before the next
statement and at the commit; the server refuses every statement after one that has failed, until it
rolls back, and answers a COMMIT with a ROLLBACK; a flush that fails rolls back by itself, and the
session refuses everything from then on. -/

structure Session (W : Type) where
  added : List W := []
  written : List W := []
  aborted : Bool := false
  inactive : Bool := false
  deriving DecidableEq

namespace Session

variable {W : Type} {s : Session W} {w : Option W}

def add (s : Session W) (w : W) : Session W := { s with added := s.added ++ [w] }

/-- The second value is false when the flush raises. -/
def flush (s : Session W) (refused : Bool) : Session W × Bool :=
  if s.inactive then (s, false)
  else if s.added.isEmpty then (s, true)
  else if s.aborted || refused then ({ inactive := true }, false)
  else ({ s with added := [], written := s.written ++ s.added }, true)

/-- What can go wrong in a call that executes one statement: an exception before anything is sent,
the flush or the statement refused by the server, an exception after it. -/
inductive Fault
  | before | flush | statement | after
  deriving DecidableEq, Repr

/-- One statement, which may write; false is an exception. -/
def execute (s : Session W) (fault : Option Fault) (w : Option W) : Session W × Bool :=
  if fault = some .before then (s, false)
  else
    let (s, flushed) := s.flush (fault = some .flush)
    if !flushed then (s, false)
    else if s.aborted || fault = some .statement then ({ s with aborted := true }, false)
    else ({ s with written := s.written ++ w.toList }, fault ≠ some .after)

/-- What becomes durable, unless the commit raises. -/
def commit (s : Session W) : Option (List W) :=
  let (s, flushed) := s.flush false
  if !flushed then none
  else if s.aborted then some []
  else some s.written

/-- What a commit would store. -/
def content (s : Session W) : List W := s.written ++ s.added

/-- The server refuses something that the call sends. -/
def refuses (s : Session W) (fault : Option Fault) : Bool :=
  fault = some .statement || (fault = some .flush && !s.added.isEmpty)

end Session
