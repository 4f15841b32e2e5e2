import Ash.OperationErrors

/-! # The dictionary of a session's paths

A call numbers the paths it does not know, all of them or none.  Over any history of calls the
numbers stay with their paths. -/

namespace Ash.PathDictionaries
open ByteCodecs KeyedTables Outcomes OperationErrors TextSlices

structure PathEntry where
  id : ℕ
  value : Text
  deriving DecidableEq

structure InternedPaths where
  ids : List ℕ
  introduced : List PathEntry
  deriving DecidableEq

structure State where
  nextId : ℕ
  byPath : Table Text ℕ

def State.new : State := ⟨1,∅⟩

def State.add (state : State) (path : Text) : State :=
  ⟨state.nextId+1,state.byPath.insert path state.nextId⟩

def validatePath (path : Text) : Except PathDictionaryError Unit :=
  if path=[] ∨ byteLength path > 4096 ∨ '\x00'∈path then .error .invalidPath else .ok ()

/-- The paths that are not known, each where it first occurs. -/
def State.unknown (state : State) (paths : List Text) : List Text :=
  (paths.filter fun path => state.byPath.lookup path=none).eraseDups

def internLoop : State → List Text → State × List ℕ × List PathEntry
  | state,[] => (state,[],[])
  | state,path::paths =>
      match state.byPath.lookup path with
      | some id =>
          let rest := internLoop state paths
          (rest.1,id::rest.2.1,rest.2.2)
      | none =>
          let rest := internLoop (state.add path) paths
          (rest.1,state.nextId::rest.2.1,⟨state.nextId,path⟩::rest.2.2)

/-- The sum of the entries saturates; everything is checked before the first path is added. -/
def intern (maxEntries : ℕ) (state : State) (paths : List Text) :
    State × Except PathDictionaryError InternedPaths :=
  match each validatePath paths with
  | .error error => (state,.error error)
  | .ok () =>
      let newCount := (state.unknown paths).length
      if min (size state.byPath+newCount) (2 ^ 64 - 1) > maxEntries then
        (state,.error (.quota maxEntries))
      else if state.nextId+newCount ≥ 2 ^ 64 then (state,.error .idExhausted)
      else
        let done := internLoop state paths
        (done.1,.ok ⟨done.2.1,done.2.2⟩)

/-! ## One call -/

/-- Every id belongs to one path and lies below the next one. -/
structure Consistent (state : State) : Prop where
  next : state.nextId=size state.byPath+1
  bounds : ∀ path id, state.byPath.lookup path=some id → 0 < id ∧ id < state.nextId
  injective : ∀ path other id, state.byPath.lookup path=some id →
    state.byPath.lookup other=some id → path=other

variable {state : State} {path : Text} {paths : List Text}

theorem Consistent.add (h : Consistent state) (hnew : state.byPath.lookup path=none) :
    Consistent (state.add path) where
  next := by
    rw [State.add,size_insert (AList.lookup_eq_none.1 hnew),h.next]
  bounds other id hother := by
    rw [State.add] at hother ⊢
    by_cases heq : other=path
    · subst heq
      rw [AList.lookup_insert,Option.some.injEq] at hother
      have hnext := h.next
      simp only
      omega
    · rw [AList.lookup_insert_ne heq] at hother
      have hbounds := h.bounds other id hother
      simp only
      omega
  injective left right id hleft hright := by
    have hfresh : ∀ other,state.byPath.lookup other≠some state.nextId :=
      fun other hother => Nat.lt_irrefl _ (h.bounds other _ hother).2
    rw [State.add] at hleft hright
    by_cases heq : left=path <;> by_cases heq' : right=path
    · rw [heq,heq']
    · subst heq
      rw [AList.lookup_insert,Option.some.injEq] at hleft
      rw [AList.lookup_insert_ne heq',← hleft] at hright
      exact absurd hright (hfresh right)
    · subst heq'
      rw [AList.lookup_insert,Option.some.injEq] at hright
      rw [AList.lookup_insert_ne heq,← hright] at hleft
      exact absurd hleft (hfresh left)
    · rw [AList.lookup_insert_ne heq] at hleft
      rw [AList.lookup_insert_ne heq'] at hright
      exact h.injective left right id hleft hright

/-- The dictionary after any calls, made one at a time. -/
def run (maxEntries : ℕ) (state : State) (calls : List (List Text)) : State :=
  calls.foldl (fun state paths => (intern maxEntries state paths).1) state

theorem consistent_new : Consistent .new :=
  ⟨rfl,fun _ _ h => (nomatch h),fun _ _ _ h => nomatch h⟩

end Ash.PathDictionaries
