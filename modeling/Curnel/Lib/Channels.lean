/-
Channels of bounded room between clients that share nothing else.

A client sends elements of its memory, and receives elements into it. A send that finds too
little room waits with what it has left, a receive that finds nothing waits for it; what
goes on in the meantime, a `Step` each, may be anything. So a send that is over has put as
many of its elements as it says, in order, and one that waits has filled its channel; a
receive takes the oldest elements of its channel, and changes its client's memory only where
it puts them.
-/

import Curnel.Lib.Ring
import Mathlib.Logic.Function.Basic

namespace Lib.Channels

variable {ι α : Type} {cap : Nat}

/-! ### The ledger of a channel -/

section Ledger

variable {f g : Fifo α cap}

/-- What was put in and what was taken out leave no doubt what is queued. -/
theorem fifo_eq (haccepted : g.accepted = f.accepted) (hdelivered : g.delivered = f.delivered) :
    g = f := by
  have hqueue : f.delivered ++ g.queue = f.delivered ++ f.queue := by
    rw [← hdelivered, g.conserved, haccepted, hdelivered, f.conserved]
  have hqueue := List.append_cancel_left hqueue
  cases f
  cases g
  simp_all

theorem fifo_eq_put {xs : List α} (haccepted : g.accepted = f.accepted ++ xs)
    (hdelivered : g.delivered = f.delivered) :
    ∃ fits : f.queue.length + xs.length ≤ cap, g = f.put xs fits := by
  have hqueue : f.delivered ++ g.queue = f.delivered ++ (f.queue ++ xs) := by
    rw [← hdelivered, g.conserved, haccepted, hdelivered, ← List.append_assoc, f.conserved]
  have hbound := g.bounded
  rw [List.append_cancel_left hqueue, List.length_append] at hbound
  exact ⟨hbound, fifo_eq haccepted hdelivered⟩

@[simp] theorem put_nil (fits : f.queue.length + ([] : List α).length ≤ cap) : f.put [] fits = f :=
  fifo_eq (List.append_nil _) rfl

theorem fifo_eq_take {n : Nat} (haccepted : g.accepted = f.accepted)
    (hdelivered : g.delivered = f.delivered ++ f.queue.take n) : g = f.take n :=
  fifo_eq haccepted hdelivered

end Ledger

/-! ### Memory -/

/-- `n` elements of a memory from `a` on. -/
def load (m : Nat → α) (a n : Nat) : List α := (List.range n).map fun k => m (a + k)

/-- The memory with elements put from `a` on. -/
def store (m : Nat → α) (a : Nat) (xs : List α) : Nat → α := fun x =>
  if a ≤ x then xs.getD (x - a) (m x) else m x

theorem length_load (m : Nat → α) (a n : Nat) : (load m a n).length = n := by
  simp [load]

/-! ### Calls -/

/-- A call that waits. -/
inductive Pending (ι α : Type) where
  /-- The first `sent` elements of `data` are in the channel. -/
  | send (i : ι) (data : List α) (sent : Nat)
  /-- At most `limit` elements are to go to `dst`. -/
  | receive (i : ι) (dst limit : Nat)

/-- What a client learns: its call is over with this many elements, or without success, or
waits. -/
inductive Result where
  | done (count : Nat)
  | failed
  | waits

/-- The channels, the memory of the client that runs, and the calls that wait. -/
structure State (ι α : Type) (cap : Nat) where
  channels : ι → Fifo α cap
  memory : Nat → α
  pending : List (Pending ι α)

/-- A channel without room. -/
def Full (f : Fifo α cap) : Prop := f.queue.length = cap

/-- The next elements of `data` go into a channel: all of them, or as many as it has room
for. -/
inductive Sends (i : ι) (data : List α) (sent : Nat) (f : Fifo α cap) :
    Result → Fifo α cap → List (Pending ι α) → Prop where
  | done {k : Nat} (fits : f.queue.length + ((data.drop sent).take k).length ≤ cap) :
      sent + k ≤ data.length → (sent + k < data.length → Full (f.put _ fits)) →
      Sends i data sent f (.done (sent + k)) (f.put _ fits) []
  | waits {k : Nat} (fits : f.queue.length + ((data.drop sent).take k).length ≤ cap) :
      sent + k < data.length → Full (f.put _ fits) →
      Sends i data sent f .waits (f.put _ fits) [.send i data (sent + k)]
  | failed : Sends i data sent f .failed f []

/-- The oldest elements of a channel go to `dst`, as many as there are up to `limit`. -/
inductive Receives (i : ι) (dst limit : Nat) (f : Fifo α cap) (m : Nat → α) :
    Result → Fifo α cap → (Nat → α) → List (Pending ι α) → Prop where
  | done : Receives i dst limit f m (.done (min limit f.queue.length)) (f.take limit)
      (store m dst (f.queue.take limit)) []
  | waits : f.queue = [] → Receives i dst limit f m .waits f m [.receive i dst limit]
  | failed : Receives i dst limit f m .failed f m []

/-! ### Steps -/

inductive Event (ι α : Type) where
  | send (i : ι) (src n : Nat) (result : Result)
  | receive (i : ι) (dst limit : Nat) (result : Result)
  /-- A call that has waited goes on. -/
  | resume (call : Pending ι α) (result : Result)
  /-- A call that has nothing to do with a channel. -/
  | idle
  /-- A client changes its memory, or another one runs. -/
  | memory
  /-- Channels are used in other ways. -/
  | channels

/-- `lost` is a receive whose memory has gone while it waited: it takes what it should put
there, and fails. -/
inductive Step [DecidableEq ι] : State ι α cap → Event ι α → State ι α cap → Prop where
  | send {s : State ι α cap} {i : ι} {src n : Nat} {r : Result} {f : Fifo α cap}
      {p : List (Pending ι α)} :
      Sends i (load s.memory src n) 0 (s.channels i) r f p →
      Step s (.send i src n r)
        { s with channels := Function.update s.channels i f, pending := p ++ s.pending }
  | receive {s : State ι α cap} {i : ι} {dst limit : Nat} {r : Result} {f : Fifo α cap}
      {m : Nat → α} {p : List (Pending ι α)} :
      Receives i dst limit (s.channels i) s.memory r f m p →
      Step s (.receive i dst limit r) ⟨Function.update s.channels i f, m, p ++ s.pending⟩
  | sendOn {s : State ι α cap} {i : ι} {data : List α} {sent : Nat} {r : Result}
      {f : Fifo α cap} {p before after : List (Pending ι α)} :
      s.pending = before ++ .send i data sent :: after → Sends i data sent (s.channels i) r f p →
      Step s (.resume (.send i data sent) r)
        { s with channels := Function.update s.channels i f, pending := before ++ p ++ after }
  | receiveOn {s : State ι α cap} {i : ι} {dst limit : Nat} {r : Result} {f : Fifo α cap}
      {m : Nat → α} {p before after : List (Pending ι α)} :
      s.pending = before ++ .receive i dst limit :: after →
      Receives i dst limit (s.channels i) s.memory r f m p →
      Step s (.resume (.receive i dst limit) r)
        ⟨Function.update s.channels i f, m, before ++ p ++ after⟩
  | lost {s : State ι α cap} {i : ι} {dst limit : Nat} {before after : List (Pending ι α)} :
      s.pending = before ++ .receive i dst limit :: after →
      Step s (.resume (.receive i dst limit) .failed)
        { s with channels := Function.update s.channels i ((s.channels i).take limit)
                 pending := before ++ after }
  | idle (s : State ι α cap) : Step s .idle s
  | memory (s : State ι α cap) (m : Nat → α) : Step s .memory { s with memory := m }
  | channels {s : State ι α cap} {channels : ι → Fifo α cap} :
      (∀ i, Fifo.Steps (s.channels i) (channels i)) →
      Step s .channels { s with channels := channels }

end Lib.Channels
