import AnimusCore.Cep.Rule
import AnimusCore.Lib.Candidates

/-! How the windows of the two engines correspond. The native queue of a sum is the
fallback's window entry by entry; a monotonic deque is the list of the window's
candidates. Both need the additions of the eviction tests to stay within a word. -/

set_option autoImplicit false

namespace AnimusCore.Cep

open Lib List

def CepWindowEntry.exact (entry : CepWindowEntry) : PythonEntry :=
  ⟨entry.sequence.toNat, entry.timestampMs.toNat, entry.value.toNat⟩

variable {rule : CepRule} {nowMs : Nat} {window : List PythonEntry} {events : List Event} {event : Event}

theorem CepRule.size_toNat (rule : CepRule) : rule.size.toNat = rule.pythonSize := by
  unfold CepRule.size CepRule.pythonSize
  split
  case isTrue zero => simp [zero]
  case isFalse nonzero =>
    have positive : rule.windowSize.toNat ≠ 0 := fun zero => nonzero (UInt64.toNat_inj.mp zero)
    omega

theorem CepRule.one_le_pythonSize (rule : CepRule) : 1 ≤ rule.pythonSize := Nat.le_max_left 1 _

theorem CepRule.size_lt (rule : CepRule) : rule.pythonSize < 2 ^ 64 := by
  rw [← rule.size_toNat]
  exact rule.size.toNat_lt

theorem pythonEvict_count (counts : rule.windowType = .count) :
    rule.pythonEvict nowMs window = window.drop (window.length - rule.pythonSize) := by
  induction window with
  | nil => simp [CepRule.pythonEvict]
  | cons front rest ih =>
    simp only [CepRule.pythonEvict, CepRule.pythonLeaves, counts, decide_eq_true_eq, ih,
      length_cons, drop_excess_cons]

private theorem pythonEvict_time (times : rule.windowType = .time) : rule.pythonEvict nowMs window =
      window.dropWhile fun entry => entry.timestampMs + rule.pythonSize ≤ nowMs := by
  induction window with
  | nil => rfl
  | cons front rest ih =>
    simp only [CepRule.pythonEvict, CepRule.pythonLeaves, times, ih, dropWhile_cons]

variable {entry : PythonEntry}

/-- The last entry is never evicted: the window size is at least one. -/
theorem pythonEvict_ne_nil (now : entry.timestampMs = nowMs) : rule.pythonEvict nowMs (window ++ [entry]) ≠ [] := by
  have size := rule.one_le_pythonSize
  cases kind : rule.windowType with
  | count =>
    rw [pythonEvict_count kind, ne_eq, drop_eq_nil_iff, length_append, length_singleton]
    omega
  | time =>
    rw [pythonEvict_time kind, ne_eq, dropWhile_eq_nil_iff]
    intro all
    have last := all entry (mem_append_right _ (mem_singleton_self entry))
    rw [decide_eq_true_eq] at last
    omega

theorem pythonAfter_concat : pythonAfter rule (events ++ [event]) =
      (pythonAfter rule events).feed event.value.toNat event.nowMs.toNat := by
  simp [pythonAfter]

theorem pythonAfter_rule : (pythonAfter rule events).rule = rule := by
  induction events using List.reverseRecOn with
  | nil => rfl
  | append_singleton events event ih =>
    rw [pythonAfter_concat]
    exact ih

theorem pythonAfter_window_ne_nil : (pythonAfter rule (events ++ [event])).window ≠ [] := by
  rw [pythonAfter_concat]
  exact pythonEvict_ne_nil rfl

/-- The last events, or those whose time in the window is not over. -/
def lastWindow (rule : CepRule) (events : List Event) (nowMs : UInt64) : List Event :=
  match rule.windowType with
  | .count => events.drop (events.length - rule.pythonSize)
  | .time => events.filter fun event => nowMs.toNat < event.nowMs.toNat + rule.pythonSize

/-- Keep the whole window and recompute everything. -/
def rescan (rule : CepRule) (events : List Event) (nowMs : UInt64) : Option (Bool × Nat) :=
  rule.aggregate ((lastWindow rule events nowMs).map fun event => event.value.toNat)

def Event.stamp (event : Event) : Nat × Nat := (event.nowMs.toNat, event.value.toNat)

def PythonEntry.stamp (entry : PythonEntry) : Nat × Nat := (entry.timestampMs, entry.value)

def Nondecreasing (events : List Event) : Prop :=
  events.Pairwise fun early late => early.nowMs.toNat ≤ late.nowMs.toNat

theorem Nondecreasing.initial (sorted : Nondecreasing (events ++ [event])) : Nondecreasing events :=
  (pairwise_append.mp sorted).1

theorem Nondecreasing.le_last (sorted : Nondecreasing (events ++ [event])) :
    ∀ early ∈ events, early.nowMs.toNat ≤ event.nowMs.toNat := by
  intro early inside
  exact (pairwise_append.mp sorted).2.2 early inside event (mem_singleton_self event)

private theorem pythonAfter_count (counts : rule.windowType = .count) (events : List Event) :
    (pythonAfter rule events).window.map PythonEntry.stamp =
      (events.drop (events.length - rule.pythonSize)).map Event.stamp := by
  induction events using List.reverseRecOn with
  | nil => simp [pythonAfter]
  | append_singleton events event ih =>
    rw [pythonAfter_concat]
    have lengths := congrArg List.length ih
    rw [length_map, length_map] at lengths
    simp only [PythonRuleState.feed, pythonAfter_rule, pythonEvict_count counts, map_drop,
      map_append, ih, length_append, length_singleton, lengths]
    have stamped := drop_excess_concat (events.map Event.stamp) event.stamp rule.pythonSize
    rw [length_drop, length_map] at stamped
    rw [length_drop]
    exact stamped

private theorem pythonEvict_suffix : rule.pythonEvict nowMs window <:+ window := by
  cases kind : rule.windowType with
  | count =>
    rw [pythonEvict_count kind]
    exact drop_suffix ..
  | time =>
    rw [pythonEvict_time kind]
    exact dropWhile_suffix _

theorem pythonAfter_sublist (events : List Event) :
    ((pythonAfter rule events).window.map PythonEntry.stamp).Sublist (events.map Event.stamp) := by
  induction events using List.reverseRecOn with
  | nil => exact .slnil
  | append_singleton events event ih =>
    rw [pythonAfter_concat, map_append]
    refine (pythonEvict_suffix.sublist.map PythonEntry.stamp).trans ?_
    rw [map_append]
    exact ih.append (List.Sublist.refl _)

theorem exists_fed (inside : entry ∈ (pythonAfter rule events).window) :
    ∃ event ∈ events, event.nowMs.toNat = entry.timestampMs := by
  obtain ⟨origin, fed, same⟩ := mem_map.mp ((pythonAfter_sublist events).subset (mem_map_of_mem inside))
  exact ⟨origin, fed, congrArg Prod.fst same⟩

private theorem pythonAfter_sorted (sorted : Nondecreasing (events ++ [event])) (entry : PythonEntry)
    (last : entry.timestampMs = event.nowMs.toNat) :
    ((pythonAfter rule events).window ++ [entry]).Pairwise fun early late =>
      early.timestampMs ≤ late.timestampMs := by
  have stamps : (events.map Event.stamp).Pairwise fun early late => early.1 ≤ late.1 :=
    pairwise_map.mpr sorted.initial
  have listed : ((pythonAfter rule events).window.map PythonEntry.stamp).Sublist
      (events.map Event.stamp) := pythonAfter_sublist events
  have windows := pairwise_map.mp (stamps.sublist listed)
  refine pairwise_append.mpr ⟨windows, pairwise_singleton _ _, ?_⟩
  intro early inside late here
  rw [mem_singleton] at here
  rw [here, last]
  obtain ⟨origin, fed, time⟩ := exists_fed inside
  rw [← time]
  exact sorted.le_last origin fed

private theorem pythonAfter_alive (times : rule.windowType = .time) {bound : Nat}
    (reached : ∀ event ∈ events, event.nowMs.toNat ≤ bound) :
    ((pythonAfter rule events).window.map PythonEntry.stamp).filter (fun stamp => bound < stamp.1 + rule.pythonSize) =
      (events.map Event.stamp).filter fun stamp => bound < stamp.1 + rule.pythonSize := by
  induction events using List.reverseRecOn with
  | nil => rfl
  | append_singleton events event ih =>
    have before := ih fun early inside => reached early (mem_append_left _ inside)
    have now := reached event (mem_append_right _ (mem_singleton_self event))
    rw [pythonAfter_concat]
    simp only [PythonRuleState.feed, pythonAfter_rule, pythonEvict_time times]
    rw [filter_map, filter_dropWhile, ← filter_map, map_append, filter_append, before, map_append, filter_append]
    · rfl
    · intro entry gone
      rw [decide_eq_true_eq] at gone
      have past : ¬ bound < entry.timestampMs + rule.pythonSize := by omega
      exact decide_eq_false past

private theorem pythonAfter_time (times : rule.windowType = .time) (sorted : Nondecreasing (events ++ [event])) :
    (pythonAfter rule (events ++ [event])).window.map PythonEntry.stamp = ((events ++ [event]).filter fun early =>
        event.nowMs.toNat < early.nowMs.toNat + rule.pythonSize).map Event.stamp := by
  have reached : ∀ early ∈ events ++ [event], early.nowMs.toNat ≤ event.nowMs.toNat := by
    intro early inside
    rcases mem_append.mp inside with before | last
    · exact sorted.le_last early before
    · rw [mem_singleton.mp last]
  have alive := pythonAfter_alive times reached
  rw [filter_map, filter_map] at alive
  refine Eq.trans (congrArg (List.map PythonEntry.stamp) (Eq.symm ?_)) alive
  rw [filter_eq_self, pythonAfter_concat]
  intro entry inside
  simp only [PythonRuleState.feed, pythonAfter_rule, pythonEvict_time times] at inside
  rw [dropWhile_eq_filter, mem_filter] at inside
  · have stays : event.nowMs.toNat < entry.timestampMs + rule.pythonSize := by
      simpa using inside.2
    exact decide_eq_true stays
  · refine (pythonAfter_sorted sorted _ rfl).imp fun {early late} ordered gone => ?_
    simp only [decide_eq_true_eq] at gone ⊢
    omega

theorem pythonAfter_window (sorted : Nondecreasing (events ++ [event])) :
    (pythonAfter rule (events ++ [event])).window.map PythonEntry.value =
      (lastWindow rule (events ++ [event]) event.nowMs).map fun early => early.value.toNat := by
  have stamps : (pythonAfter rule (events ++ [event])).window.map PythonEntry.stamp =
      (lastWindow rule (events ++ [event]) event.nowMs).map Event.stamp := by
    unfold lastWindow
    cases kind : rule.windowType with
    | count => exact pythonAfter_count kind _
    | time => exact pythonAfter_time kind sorted
  have values := congrArg (List.map Prod.snd) stamps
  rw [map_map, map_map] at values
  exact values

/-- The native test of a monotonic deque, on unbounded integers. -/
def CepRule.pythonExpired (rule : CepRule) (sequence nowMs : Nat) (entry : PythonEntry) : Bool :=
  match rule.windowType with
  | .count => entry.sequence + rule.pythonSize ≤ sequence
  | .time => entry.timestampMs + rule.pythonSize ≤ nowMs

/-- The entries are consecutive, and the last has the given number. -/
def Numbered (sequence : Nat) (window : List PythonEntry) : Prop :=
  ∃ first, window.map PythonEntry.sequence = List.range' first window.length ∧
    first + window.length = sequence + 1

variable {sequence : Nat}

section
variable (numbered : Numbered sequence window)
include numbered

theorem Numbered.concat (next : entry.sequence = sequence + 1) : Numbered (sequence + 1) (window ++ [entry]) := by
  obtain ⟨first, numbers, last⟩ := numbered
  refine ⟨first, ?_, ?_⟩
  · rw [map_append, numbers, length_append, length_singleton, List.range'_concat, map_singleton, next]
    simp only [Nat.one_mul, last]
  · rw [length_append, length_singleton]
    omega

theorem Numbered.suffix {rest : List PythonEntry} (suffix : rest <:+ window) : Numbered sequence rest := by
  obtain ⟨first, numbers, last⟩ := numbered
  obtain ⟨front, rfl⟩ := suffix
  rw [length_append] at last
  refine ⟨first + front.length, ?_, by omega⟩
  have dropped := congrArg (List.drop front.length) numbers
  rw [map_append, drop_left' (length_map _), drop_range', length_append] at dropped
  rw [dropped]
  congr 1 <;> omega

theorem Numbered.le (inside : entry ∈ window) : entry.sequence ≤ sequence := by
  obtain ⟨first, numbers, last⟩ := numbered
  have listed : entry.sequence ∈ List.range' first window.length := by
    rw [← numbers]
    exact mem_map_of_mem inside
  rw [mem_range'_1] at listed
  omega

end

theorem pythonAfter_numbered (events : List Event) : (pythonAfter rule events).sequence = events.length ∧
      Numbered events.length (pythonAfter rule events).window := by
  induction events using List.reverseRecOn with
  | nil => exact ⟨rfl, 1, rfl, rfl⟩
  | append_singleton events event ih =>
    obtain ⟨sequence, numbered⟩ := ih
    rw [pythonAfter_concat, length_append, length_singleton]
    refine ⟨congrArg (· + 1) sequence, ?_⟩
    exact (numbered.concat (congrArg (· + 1) sequence)).suffix pythonEvict_suffix

theorem Numbered.pythonEvict_eq (numbered : Numbered sequence window) (counts : rule.windowType = .count) :
    rule.pythonEvict nowMs window = window.dropWhile (rule.pythonExpired sequence nowMs) := by
  obtain ⟨first, numbers, last⟩ := numbered
  induction window generalizing first with
  | nil => rfl
  | cons front rest ih =>
    rw [length_cons] at last
    rw [map_cons, length_cons, List.range'_succ, List.cons.injEq] at numbers
    obtain ⟨head, tail⟩ := numbers
    have leaves : rule.pythonLeaves nowMs (front :: rest).length front = rule.pythonExpired sequence nowMs front := by
      simp only [CepRule.pythonLeaves, CepRule.pythonExpired, counts, length_cons, head, decide_eq_decide]
      omega
    rw [CepRule.pythonEvict, dropWhile_cons, leaves, ih (first + 1) tail (by omega)]

/-- Both window kinds evict by a test that, once it spares an entry, spares all later. -/
theorem pythonAfter_evict (rule : CepRule) (sorted : Nondecreasing (events ++ [event])) {entries : List PythonEntry}
    (pushed : entries = (pythonAfter rule events).window ++
      [⟨events.length + 1, event.nowMs.toNat, event.value.toNat⟩]) : rule.pythonEvict event.nowMs.toNat entries =
        entries.dropWhile (rule.pythonExpired (events.length + 1) event.nowMs.toNat) ∧
      entries.Pairwise fun early late => rule.pythonExpired (events.length + 1) event.nowMs.toNat late →
        rule.pythonExpired (events.length + 1) event.nowMs.toNat early := by
  cases kind : rule.windowType with
  | count =>
    have numbered : Numbered events.length (pythonAfter rule events).window := (pythonAfter_numbered events).2
    have pushedNumbered : Numbered (events.length + 1) entries := pushed ▸ numbered.concat rfl
    refine ⟨pushedNumbered.pythonEvict_eq kind, ?_⟩
    obtain ⟨first, numbers, -⟩ := pushedNumbered
    have increasing : (entries.map PythonEntry.sequence).Pairwise (· < ·) := by
      rw [numbers]
      exact pairwise_lt_range'
    refine (pairwise_map.mp increasing).imp fun {early late} before gone => ?_
    simp only [CepRule.pythonExpired, kind, decide_eq_true_eq] at gone ⊢
    omega
  | time =>
    refine ⟨?_, ?_⟩
    · rw [pythonEvict_time kind]
      congr 1
      funext entry
      simp only [CepRule.pythonExpired, kind]
    · rw [pushed]
      refine (pythonAfter_sorted sorted _ rfl).imp fun {early late} ordered gone => ?_
      simp only [CepRule.pythonExpired, kind, decide_eq_true_eq] at gone ⊢
      omega

end AnimusCore.Cep
