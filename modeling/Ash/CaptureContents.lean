import Ash.StoreHistories
import Mathlib.Data.List.DropRight

/-! # What a capture holds

However a stream is divided into appends, its capture ends with the bytes of the stream: in memory
as long as they fit, otherwise in a file beside a sample of both ends. -/

namespace Ash.ResultStores
open Outcomes

variable {Id : Type} {limits : StoreLimits} {state : State Id} {address limit : ℕ}
  {stream : List UInt8}

/-! ## Samples -/

theorem rtake_rtake_append (count : ℕ) (front back : List UInt8) :
    (front.rtake count++back).rtake count=(front++back).rtake count := by
  have hmin : min (count - back.length) count=count - back.length := by omega
  simp only [List.rtake_eq_reverse_take_reverse,List.reverse_append,List.reverse_reverse,
    List.take_append,List.take_take,List.length_reverse,hmin]

/-- The sample of a whole stream. -/
def sampleOf (limit : ℕ) (stream : List UInt8) : CaptureSample :=
  ⟨stream.take (limit / 2),stream[limit / 2]?,(stream.drop (limit / 2)).rtake (limit - limit / 2),
    limit / 2,limit - limit / 2⟩

theorem sampleOf_nil (limit : ℕ) : sampleOf limit []=CaptureSample.new limit := by
  simp [sampleOf,CaptureSample.new,List.rtake]

theorem observe_sampleOf (limit : ℕ) (stream chunk : List UInt8) :
    (sampleOf limit stream).observe chunk=sampleOf limit (stream++chunk) := by
  generalize hhalf : limit / 2=half
  have hcount : half - (stream.take half).length=half - stream.length := by
    rw [List.length_take]
    omega
  have htake : chunk.take (min (half - stream.length) chunk.length) =
      chunk.take (half - stream.length) := List.take_eq_take_iff.2 (by omega)
  have hdrop : chunk.drop (min (half - stream.length) chunk.length) =
      chunk.drop (half - stream.length) := List.drop_eq_drop_iff.2 (by omega)
  have htail : (stream++chunk).drop half=stream.drop half++chunk.drop (half - stream.length) :=
    List.drop_append
  -- the byte after the head is known once the head is full
  have hnext : (if ((stream++chunk).take half).length=half ∧ stream[half]?=none then
      (chunk.drop (half - stream.length)).head? else stream[half]?)=(stream++chunk)[half]? := by
    rw [List.head?_drop,List.getElem?_append,List.length_take,List.length_append]
    by_cases hlt : half < stream.length
    · rw [if_neg fun h => by simp [hlt] at h,if_pos hlt]
    · rw [if_neg hlt,List.getElem?_eq_none (Nat.le_of_not_lt hlt)]
      split
      · rfl
      · next hshort =>
        simp only [and_true] at hshort
        exact (List.getElem?_eq_none (by omega)).symm
  rw [sampleOf,sampleOf,hhalf,CaptureSample.observe]
  simp only [hcount,htake,hdrop,← List.take_append,hnext]
  congr 1
  rw [htail]
  split
  · next hzero => rw [hzero,List.rtake_zero,List.rtake_zero]
  · exact rtake_rtake_append _ _ _

/-! ## Appends -/

/-- What a stream reserves. -/
def charge (limit : ℕ) (stream : List UInt8) : ℕ :=
  if stream.length ≤ limit then 0 else stream.length

/-- The capture of a stream. -/
def held (address limit : ℕ) (stream : List UInt8) : StoreCapture :=
  ⟨⟨address,charge limit stream⟩,limit,stream.length,
    if stream.length ≤ limit then .memory stream else .disk stream (sampleOf limit stream)⟩

theorem reserve_charged {reserved incoming : ℕ} (hmax : limits.maxBytes < 2 ^ 64)
    (hroom : state.bytes+state.pendingBytes+(reserved+incoming) ≤ limits.maxBytes) :
    reserve limits (state.charged reserved) ⟨address,reserved⟩ incoming =
      (state.charged (reserved+incoming),⟨address,reserved+incoming⟩,.ok ()) := by
  have hcheck : checkReserve limits (state.charged reserved) ⟨address,reserved⟩ incoming =
      .ok () := by
    simp only [checkReserve,bind_unit_ok_iff,require_ok_iff]
    simp only [State.charged]
    omega
  unfold reserve
  split
  · next hzero =>
    subst hzero
    rfl
  · rw [hcheck,State.charged,State.charged,← Nat.add_assoc]

/-- One append: the capture of the longer stream, and the store charged for it. -/
theorem append_held {chunk : List UInt8} (hmax : limits.maxBytes < 2 ^ 64)
    (hroom : state.bytes+state.pendingBytes+(stream++chunk).length ≤ limits.maxBytes) :
    append limits (state.charged (charge limit stream)) (held address limit stream) chunk .none =
      (state.charged (charge limit (stream++chunk)),held address limit (stream++chunk),
        .ok ()) := by
  by_cases hempty : chunk=[]
  · rw [hempty,append,if_pos rfl,List.append_nil]
  rw [List.length_append] at hroom
  rw [append,if_neg hempty,held,held,charge,charge,List.length_append,
    if_neg (show ¬ 2 ^ 64 ≤ stream.length+chunk.length by omega)]
  by_cases hmem : stream.length ≤ limit
  · by_cases hfits : stream.length+chunk.length ≤ limit
    · simp only [if_pos hmem,if_pos hfits,reduceCtorEq,if_false]
    · simp only [if_pos hmem,if_neg hfits]
      rw [reserve_charged hmax (by omega)]
      simp only [spill,Nat.zero_add,← sampleOf_nil,observe_sampleOf,List.nil_append]
  · have hover : ¬ stream.length+chunk.length ≤ limit := by omega
    simp only [if_neg hmem,if_neg hover]
    rw [reserve_charged hmax hroom]
    simp only [extend,observe_sampleOf]

/-- Appends one after another, up to the first that fails. -/
def appendAll (limits : StoreLimits) : State Id → StoreCapture → List (List UInt8) →
    State Id × StoreCapture × Except StoreError Unit
  | state, capture, [] => (state,capture,.ok ())
  | state, capture, chunk::chunks =>
      match append limits state capture chunk .none with
      | (state,capture,.error error) => (state,capture,.error error)
      | (state,capture,.ok ()) => appendAll limits state capture chunks

theorem appendAll_held {chunks : List (List UInt8)} (hmax : limits.maxBytes < 2 ^ 64)
    (hroom : state.bytes+state.pendingBytes+(stream++chunks.flatten).length ≤
      limits.maxBytes) :
    appendAll limits (state.charged (charge limit stream)) (held address limit stream) chunks =
      (state.charged (charge limit (stream++chunks.flatten)),
        held address limit (stream++chunks.flatten),.ok ()) := by
  induction chunks generalizing stream with
  | nil => rw [List.flatten_nil,List.append_nil,appendAll]
  | cons chunk chunks ih =>
    rw [List.flatten_cons,← List.append_assoc] at hroom ⊢
    rw [appendAll,append_held hmax (by rw [List.length_append] at hroom; omega)]
    exact ih hroom

theorem finish_held (address limit : ℕ) (stream : List UInt8) :
    finish (held address limit stream) false=.ok
      ⟨⟨stream.length,if stream.length ≤ limit then .memory else .disk,stream⟩,
        ⟨address,charge limit stream⟩,
        if stream.length ≤ limit then none else some (sampleOf limit stream)⟩ := by
  by_cases h : stream.length ≤ limit
  · simp only [finish,held,if_pos h]
  · simp only [finish,held,if_neg h]
    rfl

/-! ## Retention -/

variable [DecidableEq Id] {hash : List UInt8 → Id} {store : ResultStore Id}
  {live : List StoreReservation}

theorem reads_of_retained {captured : CapturedContent} {faults : ReadFaults} {after : State Id}
    {refs : List ℕ} (hlen : captured.content.length=captured.content.stored.length)
    (hgen : Genuine hash store.state)
    (hbal : Balanced store.limits store.address store.state (captured.reservation::live))
    (h : retainCaptures hash store faults [captured]=(after,.ok refs)) :
    ∃ ref lease, refs=[ref] ∧ get after ref=.ok lease ∧ Reads lease captured.content.stored := by
  have hdecl : Declares hash store.address captured.pending captured.content.stored :=
    fun _ => ⟨rfl,hlen,fun _ hid => nomatch hid⟩
  have hlive : Balanced store.limits store.address store.state
      (([captured.pending] : List (PendingContent Id)).filterMap PendingContent.reservation++live)
      := hbal
  obtain ⟨error,herror⟩ | ⟨after',refs',heq,hret,-⟩ :=
    retainPending_spec hlive hgen (.cons hdecl .nil) faults
  · cases herror.symm.trans h
  · cases heq.symm.trans h
    obtain _ | ⟨⟨entry,hentry,hholds⟩,⟨⟩⟩ := hret.held
    obtain ⟨lease,hlease,hreads⟩ := get_holds hentry hholds
    exact ⟨_,lease,rfl,hlease,hreads⟩

/-- The bytes that are captured, shown, and read once they are retained are those of the stream,
however it is divided. -/
theorem capture_exact (memoryLimit : ℕ) (chunks : List (List UInt8))
    (hmax : store.limits.maxBytes < 2 ^ 64) (hgen : Genuine hash store.state)
    (hbal : Balanced store.limits store.address store.state live)
    (hquota : store.state.bytes+store.state.pendingBytes+chunks.flatten.length ≤
      store.limits.maxBytes) :
    ∃ state final captured,
      appendAll store.limits store.state (capture store memoryLimit) chunks =
        (state,final,.ok ()) ∧
      finish final false=.ok captured ∧ captured.content.stored=chunks.flatten ∧
      (captured.content.residency=.memory ↔ chunks.flatten.length ≤ memoryLimit) ∧
      captured.view=(if chunks.flatten.length ≤ memoryLimit then .complete chunks.flatten
        else .sampled (chunks.flatten.take (memoryLimit / 2)) chunks.flatten[memoryLimit / 2]?
          (chunks.flatten.rtake (memoryLimit - memoryLimit / 2))) ∧
      ∀ faults after refs, retainCaptures hash { store with state } faults [captured] =
        (after,.ok refs) →
        ∃ ref lease, refs=[ref] ∧ get after ref=.ok lease ∧ Reads lease chunks.flatten := by
  generalize hlimit : min memoryLimit store.limits.maxBytes=limit
  have hfits : chunks.flatten.length ≤ limit ↔ chunks.flatten.length ≤ memoryLimit := by omega
  have hzero : charge limit []=0 := if_pos (Nat.zero_le limit)
  have hrun : appendAll store.limits (store.state.charged (charge limit []))
      (held store.address limit []) chunks=_ := appendAll_held hmax hquota
  have hstart : held store.address limit []=capture store memoryLimit := by
    simp [capture,held,hzero,hlimit]
  rw [hstart,hzero,List.nil_append] at hrun
  refine ⟨_,_,_,hrun,finish_held _ _ _,rfl,?_,?_,?_⟩
  · rw [← hfits]
    split
    · next hmem => exact iff_of_true rfl hmem
    · next hdisk => exact iff_of_false (fun h => nomatch h) hdisk
  · by_cases hmem : chunks.flatten.length ≤ limit
    · rw [if_pos (hfits.1 hmem)]
      simp only [CapturedContent.view,if_pos hmem]
    · rw [if_neg (mt hfits.2 hmem)]
      obtain rfl : limit=memoryLimit := by omega
      simp only [CapturedContent.view,if_neg hmem,sampleOf]
      congr 1
      rw [List.rtake,List.rtake,List.drop_drop,List.length_drop]
      congr 1
      omega
  · intro faults after refs hretain
    have hcharge : charge limit chunks.flatten ≤ chunks.flatten.length := by
      unfold charge
      split <;> omega
    have hroom : store.state.HasRoom store.limits (charge limit chunks.flatten) := .inr (by omega)
    have hcharged := hbal.capture.charged hroom
    rw [StoreReservation.charged,Nat.zero_add] at hcharged
    refine reads_of_retained ?_ ?_ hcharged hretain
    · rfl
    · exact hgen

def smallStore : ResultStore (List UInt8) := ⟨0,⟨8,1⟩,State.new⟩

theorem capture_exact_spilled : ∃ state final captured,
    appendAll smallStore.limits smallStore.state (capture smallStore 2) [[1],[2,3]] =
      (state,final,.ok ()) ∧
    finish final false=.ok captured ∧ captured.view=.sampled [1] (some 2) [3] := by
  obtain ⟨state,final,captured,hrun,hfin,-,-,hview,-⟩ :=
    capture_exact 2 [[1],[2,3]] (show smallStore.limits.maxBytes < 2 ^ 64 by decide)
      (show Genuine id smallStore.state from fun _ _ h => nomatch h) (balanced_new _ _) (by decide)
  exact ⟨state,final,captured,hrun,hfin,hview⟩

end Ash.ResultStores
