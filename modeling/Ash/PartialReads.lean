import Ash.ByteCodecs
import Mathlib.Data.List.Infix

/-! # Partial reads

A reader hands out what it has in pieces of any size.  A buffer is filled by reading until it is
full or the reader has come to its end. -/

namespace Ash.PartialReads

variable {α ε : Type}

/-- What is left to read, and how the coming reads go: one fails, or it delivers at most one
item more than its number. -/
structure Reader (α : Type) where
  left : List α
  sizes : ℕ → Option ℕ

/-- One read into a buffer with some room.  Nothing is delivered only at the end. -/
def read (failure : ε) (room : ℕ) : EStateM ε (Reader α) (List α) := fun reader =>
  match reader.sizes 0 with
  | none => .error failure ⟨reader.left,fun n => reader.sizes (n+1)⟩
  | some size =>
      .ok (reader.left.take (min (size+1) room))
        ⟨reader.left.drop (min (size+1) room),fun n => reader.sizes (n+1)⟩

/-- Each round receives something or is the last, so `need` rounds fill the buffer. -/
def fillLoop (failure : ε) (need : ℕ) : ℕ → List α → EStateM ε (Reader α) (List α)
  | 0, received => pure received
  | fuel+1, received =>
      if received.length < need then do
        let items ← read failure (need - received.length)
        if items.isEmpty then pure received
        else fillLoop failure need fuel (received++items)
      else pure received

/-- Read until the buffer is full; it is left short at the end of the input only. -/
def fill (failure : ε) (need : ℕ) : EStateM ε (Reader α) (List α) := fillLoop failure need need []

/-- A reader that has just these items left, in pieces of any size. -/
structure Delivers (reader : Reader α) (items : List α) : Prop where
  left : reader.left=items
  steady : ∀ n, ∃ size, reader.sizes n=some size

/-- All schedules of reads that do not fail. -/
def Reader.steady (items : List α) (sizes : ℕ → ℕ) : Reader α := ⟨items,fun n => some (sizes n)⟩

theorem delivers_steady (items : List α) (sizes : ℕ → ℕ) :
    Delivers (Reader.steady items sizes) items :=
  ⟨rfl,fun n => ⟨sizes n,rfl⟩⟩

variable {reader : Reader α} {items : List α}

/-- A read delivers a front of what is left, and an empty one at the end only. -/
theorem read_spec (h : Delivers reader items) (failure : ε) {room : ℕ} (hroom : 0 < room) :
    ∃ front back rest, items=front++back ∧ front.length ≤ room ∧ (front=[] → items=[]) ∧
      read failure room reader=.ok front rest ∧ Delivers rest back := by
  obtain ⟨size,hsize⟩ := h.steady 0
  refine ⟨items.take (min (size+1) room),items.drop (min (size+1) room),
    ⟨items.drop (min (size+1) room),fun n => reader.sizes (n+1)⟩,
    (List.take_append_drop _ _).symm,?_,?_,?_,rfl,fun n => h.steady (n+1)⟩
  · exact (List.length_take_le _ _).trans (Nat.min_le_right _ _)
  · intro hfront
    obtain hzero | hnil := List.take_eq_nil_iff.1 hfront
    · omega
    · exact hnil
  · simp only [read,hsize,h.left]

theorem fillLoop_spec (failure : ε) (need fuel : ℕ) (received : List α)
    (hfuel : need ≤ received.length+fuel) (h : Delivers reader items) :
    ∃ rest, fillLoop failure need fuel received reader =
        .ok (received++items.take (need - received.length)) rest ∧
      Delivers rest (items.drop (need - received.length)) := by
  induction fuel generalizing reader items received with
  | zero =>
    have hfull : need - received.length=0 := by omega
    refine ⟨reader,?_,by simpa [hfull] using h⟩
    simp [fillLoop,hfull,pure,EStateM.pure]
  | succ fuel ih =>
    by_cases hshort : received.length < need
    · obtain ⟨front,back,rest,rfl,hle,hend,hread,hrest⟩ :=
        read_spec h failure (Nat.sub_pos_of_lt hshort)
      by_cases hfront : front=[]
      · have hitems := hend hfront
        refine ⟨rest,?_,?_⟩
        · simp [fillLoop,hshort,bind,EStateM.bind,hread,pure,EStateM.pure,hfront,
            (List.append_eq_nil_iff.1 hitems).2]
        · rwa [hitems,List.drop_nil,← (List.append_eq_nil_iff.1 hitems).2]
      · have hpos : 0 < front.length := List.length_pos_iff.2 hfront
        have hlen : (received++front).length=received.length+front.length :=
          List.length_append
        obtain ⟨rest',hloop,hrest'⟩ := ih (received++front) (by omega) hrest
        -- what the next rounds want is what this round has left to want
        have hneed : need - (received++front).length =
            need - received.length - front.length := by omega
        rw [hneed] at hloop hrest'
        refine ⟨rest',?_,?_⟩
        · simp only [fillLoop,hshort,if_true,bind,EStateM.bind,hread,List.isEmpty_iff,hfront,
            if_false,hloop,List.take_append,List.take_of_length_le hle,List.append_assoc]
        · rwa [List.drop_append,List.drop_eq_nil_of_le hle,List.nil_append]
    · have hfull : need - received.length=0 := by omega
      refine ⟨reader,?_,by simpa [hfull] using h⟩
      simp [fillLoop,hshort,hfull,pure,EStateM.pure]

/-- However the reads cut the input, the buffer gets its front. -/
theorem fill_spec (h : Delivers reader items) (failure : ε) (need : ℕ) :
    ∃ rest, fill failure need reader=.ok (items.take need) rest ∧
      Delivers rest (items.drop need) := by
  have hloop := fillLoop_spec failure need need [] (Nat.le_add_left _ _) h
  rwa [List.length_nil,Nat.sub_zero,List.nil_append] at hloop

/-! ## Fronts of a stream of pieces -/

/-- A front of a sequence of pieces ends between two of them or inside one. -/
theorem front_of_flatMap {β : Type} (f : β → List α) {front : List α} {pieces : List β}
    (h : front <+: pieces.flatMap f) :
    ∃ complete, complete <+: pieces ∧ (front=complete.flatMap f ∨
      ∃ piece part, complete++[piece] <+: pieces ∧ front=complete.flatMap f++part ∧
        part <+: f piece ∧ part≠[] ∧ part≠f piece) := by
  induction pieces generalizing front with
  | nil => exact ⟨[],List.nil_prefix,.inl (List.prefix_nil.1 h)⟩
  | cons piece pieces ih =>
    rw [List.flatMap_cons] at h
    have hpiece : f piece <+: f piece++pieces.flatMap f := List.prefix_append _ _
    by_cases hlen : (f piece).length ≤ front.length
    · obtain ⟨rest,rfl⟩ := List.prefix_of_prefix_length_le hpiece h hlen
      obtain ⟨complete,hcpl,hrest⟩ := ih ((List.prefix_append_right_inj _).1 h)
      refine ⟨piece::complete,List.cons_prefix_cons.2 ⟨rfl,hcpl⟩,?_⟩
      obtain rfl | ⟨other,part,hother,rfl,hpart⟩ := hrest
      · exact .inl rfl
      · refine .inr ⟨other,part,List.cons_prefix_cons.2 ⟨rfl,hother⟩,?_,hpart⟩
        rw [List.flatMap_cons,List.append_assoc]
    · have hins := List.prefix_of_prefix_length_le h hpiece (by omega)
      by_cases hfront : front=[]
      · exact ⟨[],List.nil_prefix,.inl hfront⟩
      · refine ⟨[],List.nil_prefix,.inr ⟨piece,front,?_,rfl,hins,hfront,?_⟩⟩
        · exact List.cons_prefix_cons.2 ⟨rfl,List.nil_prefix⟩
        · rintro rfl
          exact hlen le_rfl

end Ash.PartialReads
