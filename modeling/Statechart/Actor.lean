import Statechart.Event

/-!
# Actors

An actor runs beside a machine while the state that invokes it is active. It is called on
start, for each event that it is sent, and on stop; each call returns the actor as it is
then and the events that it posts. Posts go to the machine through the actor's handle, which
is closed before the actor is stopped: what it posts from then on is dropped.
-/
namespace Statechart

/-- What an actor posts through. -/
structure Handle where
  /-- The number of the actor among all that were ever started. -/
  number : Nat
  /-- The id of the invocation. -/
  id : String
  /-- Whether posts are still taken. -/
  alive : Bool := true
deriving DecidableEq, Repr

def Handle.close (h : Handle) : Handle := { h with alive := false }

/-- What a call of an actor comes to. -/
structure Reaction (A : Type) where
  actor : A
  posts : List Event := []

/-- How the actors of one source behave. An actor posts through its own handle only: in its own
callbacks, by what they return, or between two calls of the session (`Session.post`). Posts
from guards, actions or listeners and posts through the handle of another actor, made in the
middle of a call, are not modelled. -/
structure ActorSource (C A : Type) where
  /-- A new actor, given the context at the end of the macrostep that invokes it. -/
  create : C → A
  start : A → Handle → Reaction A
  receive : A → Handle → Event → Reaction A
  stop : A → Handle → Reaction A

end Statechart
