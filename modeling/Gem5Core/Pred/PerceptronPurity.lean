import Gem5Core.Pred.MultiperspectivePerceptron

/-! What squashed branches leave in the histories of the multiperspective perceptron. An
unconditional branch is shifted into the global and the path history when it is predicted, and a
squash does not take it out again. -/
namespace Gem5Core.Pred.PerceptronPurity
open Branch MultiperspectivePerceptron

/-- The calls that `BPredUnit` makes for the branches of one thread. `rnd` is the
random number of the update. -/
inductive Event where
  | lookup (sn : InstSeqNum) (pc : Addr)
  | uncond (sn : InstSeqNum) (pc : Addr)
  | correct (sn : InstSeqNum) (taken : Bool) (target : Addr)
  | squash (sn : InstSeqNum)
  | commit (sn : InstSeqNum) (taken : Bool) (target : Addr) (rnd : Nat)
deriving DecidableEq

namespace Event

def sn : Event → InstSeqNum
  | .lookup sn _ | .uncond sn _ | .correct sn _ _ | .squash sn | .commit sn _ _ _ => sn

def isUncond : Event → Bool
  | .uncond _ _ => true
  | _ => false

def isSquash : Event → Bool
  | .squash _ => true
  | _ => false

def isCommit : Event → Bool
  | .commit _ _ _ _ => true
  | _ => false

end Event

structure State where
  data : ThreadData
  records : InstSeqNum → Option MPPBranchInfo := fun _ => none

def State.setRecord (st : State) (sn : InstSeqNum) (bp_history : Option MPPBranchInfo) : State :=
  { st with records := Function.update st.records sn bp_history }

variable (p : Params)

/-- A call for a branch that has no record fails an assertion and changes
nothing. -/
def step (st : State) : Event → State
  | .lookup sn pc =>
      let (data, bp_history) := updateHistories p st.data pc false (some (lookup p st.data pc))
      { st with data }.setRecord sn bp_history
  | .uncond sn pc =>
      let (data, bp_history) := updateHistories p st.data pc true none
      { st with data }.setRecord sn bp_history
  | .correct sn taken target =>
      match st.records sn with
      | none => st
      | some bi =>
          let (data, bp_history) := update p st.data taken bi true target 0
          { st with data }.setRecord sn bp_history
  | .squash sn =>
      match st.records sn with
      | none => st
      | some bi =>
          let (data, bp_history) := squash st.data bi
          { st with data }.setRecord sn bp_history
  | .commit sn taken target rnd =>
      match st.records sn with
      | none => st
      | some bi =>
          let (data, bp_history) := update p st.data taken bi false target rnd
          { st with data }.setRecord sn bp_history

def run (events : List Event) : State := events.foldl (step p) { data := .init p }

section

variable (events : List Event)

def squashed (sn : InstSeqNum) : Bool := events.any fun event => event.isSquash && event.sn == sn

def unconditional (sn : InstSeqNum) : Bool :=
  events.any fun event => event.isUncond && event.sn == sn

def Exclusive : Prop := ∀ event ∈ events, event.isCommit = true → squashed events event.sn = false

instance : Decidable (Exclusive events) := List.decidableBAll _ _

/-- The run in which the branches that end up squashed are never predicted. -/
def neverPredicted : List Event := events.filter fun event => !squashed events event.sn

/-- The run in which only the unconditional ones of them are. -/
def unconditionalKept : List Event :=
  events.filter fun event => !squashed events event.sn || unconditional events event.sn

end

def commitHistories (data : ThreadData) : ThreadData :=
  { data with ghist_words := [], path_history := [] }

section

variable {p} {data data' : ThreadData}

section

variable (h : commitHistories data = commitHistories data')
include h

private theorem lookup_congr (pc : Addr) : lookup p data pc = lookup p data' pc := by
  have hfilter : (commitHistories data).filterTable = (commitHistories data').filterTable := by
    rw [h]
  have hbit : (commitHistories data).last_ghist_bit = (commitHistories data').last_ghist_bit := by
    rw [h]
  change data.filterTable = data'.filterTable at hfilter
  change data.last_ghist_bit = data'.last_ghist_bit at hbit
  unfold lookup
  rw [hfilter, hbit]

private theorem recordBranch_congr (bi : MPPBranchInfo) (taken : Bool) (target : Addr) (rnd : Nat) :
    commitHistories (recordBranch p data bi taken target rnd) =
      commitHistories (recordBranch p data' bi taken target rnd) := by
  cases data
  cases data'
  obtain ⟨rfl, rfl, rfl, rfl, -, rfl, rfl, -, rfl, rfl, rfl, rfl, rfl⟩ := h
  rfl

theorem update_congr (bi : MPPBranchInfo) (taken squashed : Bool) (target : Addr) (rnd : Nat) :
    commitHistories (update p data taken bi squashed target rnd).1 =
        commitHistories (update p data' taken bi squashed target rnd).1 ∧
      (update p data taken bi squashed target rnd).2 =
        (update p data' taken bi squashed target rnd).2 := by
  unfold update
  split
  · exact ⟨h, rfl⟩
  · split
    · exact ⟨h, rfl⟩
    · exact ⟨recordBranch_congr h bi taken target rnd, rfl⟩

end

end

section

/-- Two histories that look alike under `view` stay alike under every call, and
give a lookup the same record. -/
structure Observes (view : ThreadData → ThreadData) : Prop where
  lookup : ∀ {data data'}, view data = view data' → ∀ pc, lookup p data pc = lookup p data' pc
  uncond : ∀ {data data'}, view data = view data' → ∀ pc,
    view (updateHistories p data pc true none).1 = view (updateHistories p data' pc true none).1
  update : ∀ {data data'}, view data = view data' → ∀ bi taken squashed target rnd,
    view (update p data taken bi squashed target rnd).1 =
        view (update p data' taken bi squashed target rnd).1 ∧
      (update p data taken bi squashed target rnd).2 =
        (update p data' taken bi squashed target rnd).2

private theorem observes_id : Observes p id where
  lookup := by
    rintro data _ rfl pc
    rfl
  uncond := by
    rintro data _ rfl pc
    rfl
  update := by
    rintro data _ rfl bi taken squashed target rnd
    exact ⟨rfl, rfl⟩

private theorem observes_commitHistories : Observes p commitHistories where
  lookup := lookup_congr
  uncond := fun h _ => h
  update := update_congr

/-- The run `st` with all branches and the run `st'` with those of `keep`. -/
structure Related (view : ThreadData → ThreadData) (keep : InstSeqNum → Bool) (st st' : State) :
    Prop where
  data : view st.data = view st'.data
  records : ∀ sn, keep sn = true → st.records sn = st'.records sn

variable {p} {view : ThreadData → ThreadData} {keep : InstSeqNum → Bool} {st st' : State}

theorem Related.setRecord {data data' : ThreadData} (hdata : view data = view data')
    (h : Related view keep st st') (sn : InstSeqNum) (bp_history : Option MPPBranchInfo) :
    Related view keep ({ st with data }.setRecord sn bp_history)
      ({ st' with data := data' }.setRecord sn bp_history) := by
  refine ⟨hdata, ?_⟩
  intro other hkeep
  simp only [State.setRecord, Function.update_apply]
  split
  · rfl
  · exact h.records other hkeep

theorem Related.step_kept (hview : Observes p view) (h : Related view keep st st') {event : Event}
    (hkeep : keep event.sn = true) : Related view keep (step p st event) (step p st' event) := by
  have hrecord : st.records event.sn = st'.records event.sn := h.records _ hkeep
  cases event with
  | lookup sn pc =>
    simp only [step, hview.lookup h.data pc]
    exact h.setRecord h.data sn _
  | uncond sn pc => exact h.setRecord (hview.uncond h.data pc) sn _
  | correct sn taken target =>
    change st.records sn = st'.records sn at hrecord
    simp only [step, hrecord]
    cases st'.records sn with
    | none => exact h
    | some bi => exact h.setRecord h.data sn _
  | squash sn =>
    change st.records sn = st'.records sn at hrecord
    simp only [step, hrecord]
    cases st'.records sn with
    | none => exact h
    | some bi => exact h.setRecord h.data sn _
  | commit sn taken target rnd =>
    change st.records sn = st'.records sn at hrecord
    simp only [step, hrecord]
    cases st'.records sn with
    | none => exact h
    | some bi =>
      obtain ⟨hdata, hreleased⟩ := hview.update h.data bi taken false target rnd
      dsimp only
      rw [hreleased]
      exact h.setRecord hdata sn _

theorem Related.setRecord_dropped {data : ThreadData} (hdata : view data = view st.data)
    (h : Related view keep st st') {sn : InstSeqNum} (hdrop : keep sn = false)
    (bp_history : Option MPPBranchInfo) :
    Related view keep ({ st with data }.setRecord sn bp_history) st' := by
  refine ⟨hdata.trans h.data, ?_⟩
  intro other hkeep
  have hne : other ≠ sn := by
    rintro rfl
    rw [hkeep] at hdrop
    exact Bool.noConfusion hdrop
  exact (Function.update_of_ne hne _ _).trans (h.records other hkeep)

theorem Related.step_dropped (h : Related view keep st st') {event : Event}
    (hdrop : keep event.sn = false) (hcommit : event.isCommit = false)
    (huncond : event.isUncond = true → ∀ data pc,
      view (updateHistories p data pc true none).1 = view data) :
    Related view keep (step p st event) st' := by
  cases event with
  | lookup sn pc => exact h.setRecord_dropped rfl hdrop _
  | uncond sn pc => exact h.setRecord_dropped (huncond rfl _ pc) hdrop _
  | correct sn taken target =>
    simp only [step]
    cases st.records sn with
    | none => exact h
    | some bi => exact h.setRecord_dropped rfl hdrop _
  | squash sn =>
    simp only [step]
    cases st.records sn with
    | none => exact h
    | some bi => exact h.setRecord_dropped rfl hdrop _
  | commit => exact Bool.noConfusion hcommit

theorem Related.foldl (hview : Observes p view) {events : List Event}
    (hcommit : ∀ event ∈ events, event.isCommit = true → keep event.sn = true)
    (huncond : ∀ event ∈ events, event.isUncond = true → keep event.sn = false →
      ∀ data pc, view (updateHistories p data pc true none).1 = view data)
    (h : Related view keep st st') :
    Related view keep (events.foldl (step p) st)
      ((events.filter fun event => keep event.sn).foldl (step p) st') := by
  induction events generalizing st st' with
  | nil => exact h
  | cons event rest ih =>
    rw [List.forall_mem_cons] at hcommit huncond
    cases hkeep : keep event.sn with
    | true =>
      rw [List.filter_cons, if_pos hkeep]
      exact ih hcommit.2 huncond.2 (h.step_kept hview hkeep)
    | false =>
      rw [List.filter_cons, if_neg (Bool.eq_false_iff.mp hkeep)]
      refine ih hcommit.2 huncond.2 (h.step_dropped hkeep ?_ fun hu => huncond.1 hu hkeep)
      exact Bool.eq_false_iff.mpr fun hc => by simp [hcommit.1 hc] at hkeep

end

variable {p} {events : List Event}

theorem run_unconditionalKept (h : Exclusive events) :
    (run p events).data = (run p (unconditionalKept events)).data := by
  have hrelated : Related id (fun sn => !squashed events sn || unconditional events sn)
      (run p events) (run p (unconditionalKept events)) := by
    refine Related.foldl (observes_id p) ?_ ?_ ⟨rfl, fun _ _ => rfl⟩
    · intro event hmem hcommit
      simp [h event hmem hcommit]
    · intro event hmem huncond hdrop
      have hin : unconditional events event.sn = true :=
        List.any_eq_true.mpr ⟨event, hmem, by simp [huncond]⟩
      simp [hin] at hdrop
  exact hrelated.data

theorem run_neverPredicted (h : Exclusive events) :
    commitHistories (run p events).data = commitHistories (run p (neverPredicted events)).data := by
  have hrelated : Related commitHistories (fun sn => !squashed events sn) (run p events)
      (run p (neverPredicted events)) := by
    refine Related.foldl (observes_commitHistories p) ?_ ?_ ⟨rfl, fun _ _ => rfl⟩
    · intro event hmem hcommit
      simp [h event hmem hcommit]
    · intro event _ _ _ data pc
      rfl
  exact hrelated.data

/-- The branches that end up squashed leave in the histories what their
unconditional ones alone leave, and that in the global and the path history only:
all others are as if none had been predicted. -/
theorem squashed_trace (h : Exclusive events) :
    (run p events).data = (run p (unconditionalKept events)).data ∧
      commitHistories (run p events).data =
        commitHistories (run p (neverPredicted events)).data :=
  ⟨run_unconditionalKept h, run_neverPredicted h⟩

def wrongPath : List Event :=
  [.lookup 1 0x1000, .uncond 2 0x1008, .lookup 3 0x2000, .squash 3, .squash 2,
    .correct 1 true 0x3000, .commit 1 true 0x3000 0]

theorem squashed_trace_wrongPath :
    Exclusive wrongPath ∧
      (run .defaults8KB wrongPath).data =
        (run .defaults8KB
          [.lookup 1 0x1000, .uncond 2 0x1008, .squash 2, .correct 1 true 0x3000,
            .commit 1 true 0x3000 0]).data :=
  ⟨by decide, (squashed_trace (by decide)).1⟩

/-- The jump stays in the path history. -/
theorem wrongPath_not_pure :
    Exclusive wrongPath ∧
      (run .defaults8KB wrongPath).data ≠ (run .defaults8KB (neverPredicted wrongPath)).data := by
  refine ⟨by decide, ?_⟩
  intro h
  have hpath := congrArg ThreadData.path_history h
  revert hpath
  decide

end Gem5Core.Pred.PerceptronPurity
