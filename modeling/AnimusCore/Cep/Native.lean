import AnimusCore.Cep.Windows

/-! The native engine's queues after a sequence of calls, against the fallback's
window after the same calls. -/

set_option autoImplicit false

namespace AnimusCore.Cep

open Lib List

variable {rule : CepRule} {events : List Event} {event : Event} {window : List PythonEntry}

theorem stateAfter_concat : stateAfter rule (events ++ [event]) =
    (stateAfter rule events).feed event.value event.nowMs := by
  simp [stateAfter]

theorem CepRuleState.feed_rule (state : CepRuleState) (value nowMs : UInt64) :
    (state.feed value nowMs).rule = state.rule := by
  unfold CepRuleState.feed
  cases state.rule.aggregation <;> rfl

theorem CepRuleState.feed_sequenceCounter (state : CepRuleState) (value nowMs : UInt64) :
    (state.feed value nowMs).sequenceCounter = state.sequenceCounter + 1 := by
  unfold CepRuleState.feed
  cases state.rule.aggregation <;> rfl

variable {state : CepRuleState}

theorem CepRuleState.feed_sum (value nowMs : UInt64)
    (adds : state.rule.aggregation = .sum ∨ state.rule.aggregation = .avg) :
    ((state.feed value nowMs).sumWindow, (state.feed value nowMs).runningSum) =
      state.rule.evictFifo nowMs (state.sumWindow ++ [state.entry value nowMs]) (state.runningSum + value) := by
  unfold CepRuleState.feed
  rcases adds with kind | kind <;> simp only [kind]

theorem stateAfter_rule : (stateAfter rule events).rule = rule := by
  induction events using List.reverseRecOn with
  | nil => rfl
  | append_singleton events event ih => rw [stateAfter_concat, CepRuleState.feed_rule, ih]

theorem CepRule.add_size_le_iff (rule : CepRule) {word bound : UInt64}
    (fits : word.toNat + rule.pythonSize < 2 ^ 64) :
    word + rule.size ≤ bound ↔ word.toNat + rule.pythonSize ≤ bound.toNat := by
  rw [UInt64.le_iff_toNat_le, UInt64.toNat_add, rule.size_toNat, Nat.mod_eq_of_lt fits]

/-- No time stamp leaves the word range when the window size is added. -/
def TimesFit (rule : CepRule) (events : List Event) : Prop :=
  rule.windowType = .time → ∀ event ∈ events, event.nowMs.toNat + rule.pythonSize < 2 ^ 64

def CepWindowEntry.stamp (entry : CepWindowEntry) : Nat × Nat :=
  (entry.timestampMs.toNat, entry.value.toNat)

def total (entries : List CepWindowEntry) : Nat :=
  (entries.map fun entry => entry.value.toNat).sum

variable {entry : CepWindowEntry}

private theorem total_concat {entries : List CepWindowEntry} :
    total (entries ++ [entry]) = total entries + entry.value.toNat := by
  simp [total]

private theorem evictFifo_stamps (nowMs : UInt64) {runningSum : UInt64} {entries : List CepWindowEntry}
    (fits : rule.windowType = .time → ∀ entry ∈ entries, entry.timestampMs.toNat + rule.pythonSize < 2 ^ 64)
    (same : entries.map CepWindowEntry.stamp = window.map PythonEntry.stamp)
    (sum : runningSum.toNat = total entries % 2 ^ 64) :
    (rule.evictFifo nowMs entries runningSum).1.map CepWindowEntry.stamp =
        (rule.pythonEvict nowMs.toNat window).map PythonEntry.stamp ∧
      (rule.evictFifo nowMs entries runningSum).2.toNat =
        total (rule.evictFifo nowMs entries runningSum).1 % 2 ^ 64 := by
  induction entries generalizing window runningSum with
  | nil =>
    have none : window = [] := map_eq_nil_iff.mp same.symm
    rw [none]
    exact ⟨rfl, sum⟩
  | cons front rest ih =>
    cases window with
    | nil => cases same
    | cons pythonFront pythonRest =>
      have later := tail_eq_of_cons_eq same
      have stamp : front.stamp = pythonFront.stamp := head_eq_of_cons_eq same
      have time : front.timestampMs.toNat = pythonFront.timestampMs := congrArg Prod.fst stamp
      have lengths := congrArg List.length later
      rw [length_map, length_map] at lengths
      have subtracted : (runningSum - front.value).toNat = total rest % 2 ^ 64 := by
        have whole : total (front :: rest) = front.value.toNat + total rest := by
          simp [total]
        have word := front.value.toNat_lt
        rw [UInt64.toNat_sub, sum, whole]
        omega
      have leaves : rule.leavesFifo nowMs (front :: rest).length front =
          rule.pythonLeaves nowMs.toNat (pythonFront :: pythonRest).length pythonFront := by
        unfold CepRule.leavesFifo CepRule.pythonLeaves
        cases kind : rule.windowType with
        | count => simp only [length_cons, lengths, rule.size_toNat]
        | time =>
          have fit := fits kind front mem_cons_self
          simp only [rule.add_size_le_iff fit, time]
      rw [CepRule.evictFifo, CepRule.pythonEvict, leaves]
      split
      · exact ih (fun kind entry inside => fits kind entry (mem_cons_of_mem front inside)) later subtracted
      · exact ⟨same, sum⟩

structure Sums (state : CepRuleState) (python : PythonRuleState) : Prop where
  rule_eq : state.rule = python.rule
  window : state.sumWindow.map CepWindowEntry.stamp = python.window.map PythonEntry.stamp
  sum : state.runningSum.toNat = total state.sumWindow % 2 ^ 64

theorem Sums.total_eq {python : PythonRuleState} (sums : Sums state python) :
    total state.sumWindow = (python.window.map PythonEntry.value).sum := by
  have values := congrArg (List.map Prod.snd) sums.window
  rw [map_map, map_map] at values
  exact congrArg List.sum values

theorem Sums.feed {python : PythonRuleState} {value nowMs : UInt64} (sums : Sums state python)
    (adds : state.rule.aggregation = .sum ∨ state.rule.aggregation = .avg)
    (fits : state.rule.windowType = .time → ∀ entry ∈ state.sumWindow ++ [state.entry value nowMs],
      entry.timestampMs.toNat + state.rule.pythonSize < 2 ^ 64) :
    Sums (state.feed value nowMs) (python.feed value.toNat nowMs.toNat) := by
  have pushed : (state.sumWindow ++ [state.entry value nowMs]).map CepWindowEntry.stamp =
      (python.window ++ [PythonEntry.mk (python.sequence + 1) nowMs.toNat value.toNat]).map PythonEntry.stamp := by
    rw [map_append, map_append, sums.window]
    rfl
  have sum : (state.runningSum + value).toNat = total (state.sumWindow ++ [state.entry value nowMs]) % 2 ^ 64 := by
    rw [UInt64.toNat_add, sums.sum, total_concat, Nat.mod_add_mod]
    rfl
  have evicted := evictFifo_stamps nowMs fits pushed sum
  rw [← CepRuleState.feed_sum value nowMs adds] at evicted
  obtain ⟨windows, remaining⟩ := evicted
  refine ⟨?_, ?_, remaining⟩
  · rw [CepRuleState.feed_rule, sums.rule_eq]
    rfl
  · rw [sums.rule_eq] at windows
    exact windows

theorem Sums.fits (sums : Sums state (pythonAfter rule events))
    (fits : TimesFit rule (events ++ [event])) (kind : rule.windowType = .time) :
    ∀ entry ∈ state.sumWindow ++ [state.entry event.value event.nowMs],
      entry.timestampMs.toNat + rule.pythonSize < 2 ^ 64 := by
  intro entry inside
  rcases mem_append.mp inside with earlier | last
  · have window : entry.stamp ∈ (pythonAfter rule events).window.map PythonEntry.stamp := by
      rw [← sums.window]
      exact mem_map_of_mem earlier
    have stamp := (pythonAfter_sublist events).subset window
    obtain ⟨origin, fed, same⟩ := mem_map.mp stamp
    have time : origin.nowMs.toNat = entry.timestampMs.toNat := congrArg Prod.fst same
    rw [← time]
    exact fits kind origin (mem_append_left _ fed)
  · rw [mem_singleton.mp last]
    exact fits kind event (mem_append_right _ (mem_singleton_self event))

theorem stateAfter_sums (adds : rule.aggregation = .sum ∨ rule.aggregation = .avg)
    (fits : TimesFit rule events) : Sums (stateAfter rule events) (pythonAfter rule events) := by
  induction events using List.reverseRecOn with
  | nil => exact ⟨rfl, rfl, rfl⟩
  | append_singleton events event ih =>
    have before := ih fun kind early inside => fits kind early (mem_append_left _ inside)
    rw [stateAfter_concat, pythonAfter_concat]
    refine before.feed ?_ ?_ <;> rw [stateAfter_rule]
    · exact adds
    · exact before.fits fits

/-- The entries that the back of a maximum's deque makes room for, and a minimum's. -/
def yieldsMax (early late : PythonEntry) : Bool := early.value ≤ late.value

def yieldsMin (early late : PythonEntry) : Bool := early.value ≥ late.value

theorem yieldsMax_total (left right : PythonEntry) : yieldsMax left right = true ∨ yieldsMax right left = true := by
  simp only [yieldsMax, decide_eq_true_eq]
  exact Nat.le_total _ _

theorem yieldsMax_trans {first second third : PythonEntry} (left : yieldsMax first second = true)
    (right : yieldsMax second third = true) : yieldsMax first third = true := by
  simp only [yieldsMax, decide_eq_true_eq] at *
  exact left.trans right

theorem yieldsMin_total (left right : PythonEntry) : yieldsMin left right = true ∨ yieldsMin right left = true := by
  simp only [yieldsMin, decide_eq_true_eq]
  exact Nat.le_total _ _

theorem yieldsMin_trans {first second third : PythonEntry} (left : yieldsMin first second = true)
    (right : yieldsMin second third = true) : yieldsMin first third = true := by
  simp only [yieldsMin, decide_eq_true_eq] at *
  exact right.trans left

/-- The conditions under which no eviction test of a monotonic deque wraps. -/
structure KeysFit (rule : CepRule) (events : List Event) : Prop where
  sequences : events.length + rule.pythonSize < 2 ^ 64
  times : TimesFit rule events

theorem KeysFit.initial (fits : KeysFit rule (events ++ [event])) : KeysFit rule events where
  sequences := by
    have bound := fits.sequences
    rw [length_append] at bound
    omega
  times kind early inside := fits.times kind early (mem_append_left _ inside)

private theorem stateAfter_sequenceCounter (fits : events.length < 2 ^ 64) :
    (stateAfter rule events).sequenceCounter.toNat = events.length := by
  induction events using List.reverseRecOn with
  | nil => rfl
  | append_singleton events event ih =>
    rw [length_append, length_singleton] at fits ⊢
    rw [stateAfter_concat, CepRuleState.feed_sequenceCounter, UInt64.toNat_add, ih (by omega)]
    exact Nat.mod_eq_of_lt fits

theorem CepRule.expired_exact {sequenceCounter nowMs : UInt64}
    (sequence : rule.windowType = .count → entry.sequence.toNat + rule.pythonSize < 2 ^ 64)
    (time : rule.windowType = .time → entry.timestampMs.toNat + rule.pythonSize < 2 ^ 64) :
    rule.pythonExpired sequenceCounter.toNat nowMs.toNat entry.exact = rule.expired sequenceCounter nowMs entry := by
  unfold CepRule.pythonExpired CepRule.expired CepWindowEntry.exact
  cases kind : rule.windowType with
  | count => simp only [rule.add_size_le_iff (sequence kind)]
  | time => simp only [rule.add_size_le_iff (time kind)]

private theorem pushed_fits (fits : KeysFit rule (events ++ [event])) {entry : PythonEntry}
    (inside : entry ∈ (pythonAfter rule events).window ++
      [⟨events.length + 1, event.nowMs.toNat, event.value.toNat⟩]) : entry.sequence + rule.pythonSize < 2 ^ 64 ∧
      (rule.windowType = .time → entry.timestampMs + rule.pythonSize < 2 ^ 64) := by
  have bound := fits.sequences
  rw [length_append, length_singleton] at bound
  rcases mem_append.mp inside with earlier | last
  · have number := (pythonAfter_numbered events).2.le earlier
    obtain ⟨origin, fed, time⟩ := exists_fed earlier
    refine ⟨by omega, fun kind => ?_⟩
    rw [← time]
    exact fits.times kind origin (mem_append_left _ fed)
  · rw [mem_singleton.mp last]
    exact ⟨bound, fun kind => fits.times kind event (mem_append_right _ (mem_singleton_self event))⟩

section

variable {yields : PythonEntry → PythonEntry → Bool}
  (total : ∀ left right, yields left right = true ∨ yields right left = true)
  (trans : ∀ {first second third}, yields first second = true → yields second third = true →
    yields first third = true)

include total trans

/-- One call on a deque that holds the candidates of the fallback's window. -/
theorem evictMonotonic_exact (sorted : Nondecreasing (events ++ [event])) (fits : KeysFit rule (events ++ [event]))
    {deque : List CepWindowEntry} {removes : CepWindowEntry → Bool} {sequenceCounter : UInt64}
    (tracks : deque.map CepWindowEntry.exact = candidates yields (pythonAfter rule events).window)
    (agrees : ∀ back, yields back.exact entry.exact = removes back)
    (shape : entry.exact = ⟨events.length + 1, event.nowMs.toNat, event.value.toNat⟩)
    (counter : sequenceCounter.toNat = events.length + 1) :
    (rule.evictMonotonic sequenceCounter event.nowMs (deque.rdropWhile removes ++ [entry])).map CepWindowEntry.exact =
      candidates yields (pythonAfter rule (events ++ [event])).window := by
  have pushed : (deque.rdropWhile removes ++ [entry]).map CepWindowEntry.exact =
      candidates yields ((pythonAfter rule events).window ++ [entry.exact]) := by
    have kept : (deque.rdropWhile removes).map CepWindowEntry.exact =
        (deque.map CepWindowEntry.exact).rdropWhile (fun early => yields early entry.exact) :=
      map_rdropWhile agrees
    rw [candidates_push total trans, map_append, kept, tracks]
    rfl
  rw [shape] at pushed
  obtain ⟨evicted, closed⟩ := pythonAfter_evict rule sorted rfl
  have spared : ∀ other ∈ deque.rdropWhile removes ++ [entry],
      rule.pythonExpired sequenceCounter.toNat event.nowMs.toNat other.exact =
        rule.expired sequenceCounter event.nowMs other := by
    intro other inside
    obtain ⟨sequence, time⟩ := pushed_fits fits (candidates_sublist.subset (pushed ▸ mem_map_of_mem inside))
    exact CepRule.expired_exact (fun _ => sequence) time
  rw [CepRule.evictMonotonic, map_dropWhile spared, pushed, counter, ← candidates_dropWhile
    closed, ← evicted, pythonAfter_concat]
  simp only [PythonRuleState.feed, pythonAfter_rule, (pythonAfter_numbered events).1]

/-- A deque that every call feeds in this way holds the candidates throughout. -/
theorem stateAfter_deque {deque : CepRuleState → List CepWindowEntry}
    (removes : UInt64 → CepWindowEntry → Bool) (empty : deque (.create rule) = [])
    (feeds : ∀ state value nowMs, state.rule = rule → deque (state.feed value nowMs) =
      rule.evictMonotonic (state.sequenceCounter + 1) nowMs
        ((deque state).rdropWhile (removes value) ++ [state.entry value nowMs]))
    (agrees : ∀ back entry : CepWindowEntry, yields back.exact entry.exact = removes entry.value back)
    (sorted : Nondecreasing events) (fits : KeysFit rule events) :
    (deque (stateAfter rule events)).map CepWindowEntry.exact =
      candidates yields (pythonAfter rule events).window := by
  induction events using List.reverseRecOn with
  | nil =>
    change (deque (.create rule)).map _ = _
    rw [empty]
    rfl
  | append_singleton events event ih =>
    have counter : ((stateAfter rule events).sequenceCounter + 1).toNat = events.length + 1 := by
      have bound := fits.sequences
      have length : (events ++ [event]).length = events.length + 1 := by simp
      rw [← CepRuleState.feed_sequenceCounter, ← stateAfter_concat, ← length]
      exact stateAfter_sequenceCounter (by omega)
    have shape : ((stateAfter rule events).entry event.value event.nowMs).exact =
        ⟨events.length + 1, event.nowMs.toNat, event.value.toNat⟩ := by
      rw [← counter]
      rfl
    rw [stateAfter_concat, feeds _ _ _ stateAfter_rule]
    exact evictMonotonic_exact total trans sorted fits (ih sorted.initial fits.initial)
      (fun back => agrees back _) shape counter

end

theorem stateAfter_max (kind : rule.aggregation = .max) (sorted : Nondecreasing events) (fits : KeysFit rule events) :
    (stateAfter rule events).maxMonotonic.map CepWindowEntry.exact =
      candidates yieldsMax (pythonAfter rule events).window := by
  refine stateAfter_deque yieldsMax_total yieldsMax_trans
    (fun value back => back.value ≤ value) rfl ?_ (fun back entry => ?_) sorted fits
  · rintro state value nowMs rfl
    unfold CepRuleState.feed
    simp only [kind]
  · exact decide_eq_decide.mpr UInt64.le_iff_toNat_le.symm

theorem stateAfter_min (kind : rule.aggregation = .min) (sorted : Nondecreasing events) (fits : KeysFit rule events) :
    (stateAfter rule events).minMonotonic.map CepWindowEntry.exact =
      candidates yieldsMin (pythonAfter rule events).window := by
  refine stateAfter_deque yieldsMin_total yieldsMin_trans
    (fun value back => back.value ≥ value) rfl ?_ (fun back entry => ?_) sorted fits
  · rintro state value nowMs rfl
    unfold CepRuleState.feed
    simp only [kind]
  · exact decide_eq_decide.mpr UInt64.le_iff_toNat_le.symm

end AnimusCore.Cep
