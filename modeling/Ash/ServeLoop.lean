import Mathlib

/-! # The loop that serves requests

Requests are numbered as they are read, run together and end in any order.  Their responses wait
in a buffer and are written in the order of the requests.  The loop does not look into a response,
which is known here by its number. -/

namespace Ash.ServeLoop
open Relation

/-- The limits of a session, and the tasks that end without a response. -/
structure Session where
  maxInFlight : ℕ
  maxPending : ℕ
  fails : ℕ → Bool
  pending_pos : 0 < maxPending

/-- A task that runs holds a slot; one that has ended waits to be joined. -/
structure Server where
  buffered : Finset ℕ
  nextSequence : ℕ
  nextOutput : ℕ
  inputOpen : Bool
  fatal : Bool
  running : Finset ℕ
  ended : Finset ℕ
  written : List ℕ

namespace Server

def start : Server := ⟨∅,0,0,true,false,∅,∅,[]⟩

def fail (s : Server) : Server := { s with fatal := true, inputOpen := false }

def spawn (s : Server) : Server :=
  { s with nextSequence := s.nextSequence+1, running := insert s.nextSequence s.running }

/-- What `flush_ready` leaves at the head of the loop. -/
def Flushed (s : Server) : Prop := s.fatal=true ∨ s.nextOutput∉s.buffered

end Server

namespace Session

variable (session : Session)

def CanRead (s : Server) : Prop :=
  s.Flushed ∧ s.inputOpen=true ∧ s.nextSequence - s.nextOutput < session.maxPending

/-- A document is read, and its number does not overflow. -/
def Numbers (s : Server) : Prop := session.CanRead s ∧ s.nextSequence+1 < 2 ^ 64

/-- An error that returns at once is a run that goes no further. -/
inductive Step : Server → Server → Prop
  | write {s} : s.fatal=false → s.nextOutput∈s.buffered → Step s { s with
      buffered := s.buffered.erase s.nextOutput
      nextOutput := s.nextOutput+1
      written := s.written++[s.nextOutput] }
  -- a cancellation, a request that finds no slot, or an invalid one with an id
  | answer {s} : session.Numbers s → Step s { s with
      nextSequence := s.nextSequence+1
      buffered := insert s.nextSequence s.buffered }
  | spawn {s} : session.Numbers s → s.running.card < session.maxInFlight → Step s s.spawn
  | unregistered {s} : session.Numbers s → s.running.card < session.maxInFlight →
      Step s s.spawn.fail
  | anonymous {s} : session.Numbers s → Step s { s with nextSequence := s.nextSequence+1 }.fail
  | unreadable {s} : session.CanRead s → Step s s.fail
  | close {s} : session.CanRead s → Step s { s with inputOpen := false }
  | finish {s i} : i∈s.running →
      Step s { s with running := s.running.erase i, ended := insert i s.ended }
  | join {s i} : s.Flushed → s.fatal=false → i∈s.ended → session.fails i=false →
      Step s { s with buffered := insert i s.buffered, ended := s.ended.erase i }
  | discard {s i} : s.fatal=true → i∈s.ended → session.fails i=false →
      Step s { s with ended := s.ended.erase i }
  | failed {s i} : s.Flushed → i∈s.ended → session.fails i=true →
      Step s { s with ended := s.ended.erase i }.fail

end Session

/-- The numbers not yet written are those of a response or a task. -/
structure Ordered (session : Session) (s : Server) : Prop where
  written : s.written=List.range s.nextOutput
  order : s.nextOutput ≤ s.nextSequence
  window : s.nextSequence - s.nextOutput ≤ session.maxPending
  slots : s.running.card ≤ session.maxInFlight
  closed : s.fatal=true → s.inputOpen=false
  waiting : s.fatal=false → ∀ i ≥ s.nextOutput,
    i∈s.buffered ∨ i∈s.running ∨ i∈s.ended ↔ i < s.nextSequence

variable {session : Session} {s next : Server}

theorem Ordered.numbered (h : Ordered session s) (hnum : session.Numbers s) :
    s.nextOutput ≤ s.nextSequence+1 ∧ s.nextSequence+1 - s.nextOutput ≤ session.maxPending := by
  have hroom := hnum.1.2.2
  have hord := h.order
  omega

theorem Ordered.step (h : Ordered session s) (hstep : session.Step s next) :
    Ordered session next := by
  have hslot := Finset.card_insert_le s.nextSequence s.running
  cases hstep with
  | write hfatal hmem =>
    have hlt := (h.waiting hfatal _ le_rfl).1 (.inl hmem)
    refine ⟨?_,hlt,?_,h.slots,h.closed,fun _ i hi => ?_⟩
    · rw [List.range_succ,h.written]
    · exact (Nat.sub_le_sub_left (Nat.le_succ _) _).trans h.window
    · rw [← h.waiting hfatal i (Nat.le_of_succ_le hi),Finset.mem_erase]
      simp [Nat.ne_of_gt hi]
  | answer hnum =>
    obtain ⟨hord,hroom⟩ := h.numbered hnum
    refine ⟨h.written,hord,hroom,h.slots,h.closed,fun hfatal i hi => ?_⟩
    rw [Nat.lt_succ_iff_lt_or_eq,← h.waiting hfatal i hi,Finset.mem_insert]
    tauto
  | spawn hnum hfree =>
    obtain ⟨hord,hroom⟩ := h.numbered hnum
    refine ⟨h.written,hord,hroom,hslot.trans hfree,h.closed,fun hfatal i hi => ?_⟩
    rw [Server.spawn,Nat.lt_succ_iff_lt_or_eq,← h.waiting hfatal i hi,Finset.mem_insert]
    tauto
  | unregistered hnum hfree =>
    obtain ⟨hord,hroom⟩ := h.numbered hnum
    exact ⟨h.written,hord,hroom,hslot.trans hfree,fun _ => rfl,nofun⟩
  | anonymous hnum =>
    obtain ⟨hord,hroom⟩ := h.numbered hnum
    exact ⟨h.written,hord,hroom,h.slots,fun _ => rfl,nofun⟩
  | unreadable => exact ⟨h.written,h.order,h.window,h.slots,fun _ => rfl,nofun⟩
  | close => exact ⟨h.written,h.order,h.window,h.slots,fun _ => rfl,h.waiting⟩
  | @finish j hj =>
    refine ⟨h.written,h.order,h.window,Finset.card_erase_le.trans h.slots,h.closed,
      fun hfatal i hi => ?_⟩
    rw [← h.waiting hfatal i hi,← Finset.insert_erase hj]
    simp only [Finset.erase_insert_eq_erase,Finset.erase_idem,Finset.mem_insert]
    tauto
  | @join j _ hfatal hj =>
    refine ⟨h.written,h.order,h.window,h.slots,h.closed,fun _ i hi => ?_⟩
    rw [← h.waiting hfatal i hi,← Finset.insert_erase hj]
    simp only [Finset.erase_insert_eq_erase,Finset.erase_idem,Finset.mem_insert]
    tauto
  | discard hfatal =>
    refine ⟨h.written,h.order,h.window,h.slots,h.closed,fun hopen => ?_⟩
    cases hfatal.symm.trans hopen
  | failed => exact ⟨h.written,h.order,h.window,h.slots,fun _ => rfl,nofun⟩

theorem ordered_run (h : ReflTransGen session.Step .start s) : Ordered session s := by
  induction h with
  | refl => exact ⟨rfl,le_rfl,Nat.zero_le _,Nat.zero_le _,nofun,by simp [Server.start]⟩
  | tail _ hstep ih => exact ih.step hstep

/-- Nothing waits in a loop that has flushed its responses and joined its tasks. -/
theorem Ordered.drained (h : Ordered session s) (hfatal : s.fatal=false) (hflush : s.Flushed)
    (hrun : s.running=∅) (hend : s.ended=∅) : s.nextOutput=s.nextSequence := by
  refine h.order.antisymm (Nat.le_of_not_lt ?_)
  -- the number whose turn it is has no place left
  rw [← h.waiting hfatal _ le_rfl]
  simp [hrun,hend,hflush.resolve_left (by simp [hfatal])]

def single : Session := ⟨1,2,fun _ => false,Nat.two_pos⟩

theorem run_spawn : ReflTransGen single.Step .start Server.start.spawn :=
  .single (.spawn ⟨⟨.inr (by decide),rfl,by decide⟩,by decide⟩ (by decide))

/-- `select!` panics if it has no branch.  However full the window of waiting responses is, a loop
that goes on can read a request or has a task to join. -/
theorem select_never_disabled (h : ReflTransGen session.Step .start s) (hflush : s.Flushed)
    (hgoes : ¬ (s.inputOpen=false ∧ s.running=∅ ∧ s.ended=∅)) :
    session.CanRead s ∨ s.running≠∅ ∨ s.ended≠∅ := by
  have hord := ordered_run h
  by_contra hnone
  rw [not_or,not_or,not_not,not_not] at hnone
  obtain ⟨hread,hrun,hend⟩ := hnone
  have hopen : s.inputOpen≠false := fun hclosed => hgoes ⟨hclosed,hrun,hend⟩
  have hfatal : s.fatal≠true := fun hfatal => hopen (hord.closed hfatal)
  refine hread ⟨hflush,Bool.of_not_eq_false hopen,?_⟩
  rw [hord.drained (Bool.of_not_eq_true hfatal) hflush hrun hend,Nat.sub_self]
  exact session.pending_pos

theorem select_never_disabled_spawned : ∃ s : Server, s.Flushed ∧
    (single.CanRead s ∨ s.running≠∅ ∨ s.ended≠∅) :=
  ⟨.spawn .start,.inr (by decide),
    select_never_disabled run_spawn (.inr (by decide)) (by decide)⟩

end Ash.ServeLoop
