import AnimusCore.RingBuffer.Ring

/-! The ring as its callers see it: how far each call has come, and what became of the
positions. The cells, the counters and the accesses within a call are left out. -/

set_option autoImplicit false

namespace AnimusCore.RingBuffer

open List

inductive Phase (T : Type) where
  | idle
  | unclaimed (value : T)
  | claimed (value : T) (pos : Nat)
  | pushed (value : T)
  | full (value : T)
  | seeking
  | taken (pos : Nat)
  | popped (out : T)
  | empty

structure Summary (Thread T : Type) where
  phases : Thread → Phase T := fun _ => .idle
  claims : List (Thread × T) := []
  takes : List Thread := []
  published : List Nat := []
  retired : List (Thread × Nat × T) := []

section

variable {Thread T : Type}

def Outcome.phase : Outcome T → Phase T
  | .pushed value => .pushed value
  | .full value => .full value
  | .popped out => .popped out
  | .empty => .empty

def Access.phase : Access T → Phase T
  | .idle => .idle
  | .pushLoadPos value | .pushLoadSeq value _ | .pushExchange value _ => .unclaimed value
  | .pushWrite value pos | .pushPublish value pos => .claimed value pos
  | .popLoadPos | .popLoadSeq _ | .popExchange _ => .seeking
  | .popRead pos | .popRetire pos _ => .taken pos
  | .returned outcome => outcome.phase

def State.summary (state : State Thread T) : Summary Thread T where
  phases thread := (state.threads thread).phase
  claims := state.claims
  takes := state.takes
  published := state.published
  retired := state.retired

variable [DecidableEq Thread]

def Summary.go (ring : Summary Thread T) (thread : Thread) (phase : Phase T) : Summary Thread T :=
  { ring with phases := Function.update ring.phases thread phase }

inductive Effect (ring : Summary Thread T) (thread : Thread) : Summary Thread T → Prop where
  | moves : Effect ring thread ring
  | claims {value : T} : ring.phases thread = .unclaimed value →
      Effect ring thread { ring.go thread (.claimed value ring.claims.length) with
        claims := ring.claims ++ [(thread, value)] }
  | publishes {value : T} {pos : Nat} : ring.phases thread = .claimed value pos →
      Effect ring thread { ring.go thread (.pushed value) with
        published := ring.published ++ [pos] }
  | refuses {value : T} : ring.phases thread = .unclaimed value → Effect ring thread (ring.go thread (.full value))
  | takes : ring.phases thread = .seeking → ring.takes.length ∈ ring.published →
      Effect ring thread { ring.go thread (.taken ring.takes.length) with
        takes := ring.takes ++ [thread] }
  | retires {owner : Thread} {pos : Nat} {out : T} : ring.phases thread = .taken pos →
      ring.claims[pos]? = some (owner, out) →
      Effect ring thread { ring.go thread (.popped out) with
        retired := ring.retired ++ [(thread, pos, out)] }
  | empty : ring.phases thread = .seeking → ring.takes.length ∉ ring.published →
      Effect ring thread (ring.go thread .empty)

def Phase.resting : Phase T → Bool
  | .idle | .pushed _ | .full _ | .popped _ | .empty => true
  | .unclaimed _ | .claimed _ _ | .seeking | .taken _ => false

theorem Access.phase_resting (access : Access T) : access.phase.resting = access.resting := by
  cases access with
  | returned outcome => cases outcome <;> rfl
  | _ => rfl

/-- The caller only pops, and is in a call only where `busy` says so. -/
def Phase.Reads (busy : Prop) : Phase T → Prop
  | .idle | .popped _ | .empty => True
  | .seeking | .taken _ => busy
  | .unclaimed _ | .claimed _ _ | .pushed _ | .full _ => False

/-- The caller only pushes, and is pushing a value only where `busy` says so. -/
def Phase.Writes (busy : T → Prop) : Phase T → Prop
  | .idle | .pushed _ | .full _ => True
  | .unclaimed value | .claimed value _ => busy value
  | .seeking | .taken _ | .popped _ | .empty => False

/-- The positions are accounted for: what is claimed and not published is in the hands
of its writer, what is taken and not retired in the hands of its reader. -/
structure Sound (ring : Summary Thread T) : Prop where
  published_lt : ∀ pos ∈ ring.published, pos < ring.claims.length
  claimed : ∀ thread value pos, ring.phases thread = .claimed value pos →
    ring.claims[pos]? = some (thread, value) ∧ pos ∉ ring.published
  writers : ∀ pos < ring.claims.length, pos ∉ ring.published → ∃ thread value, ring.phases thread = .claimed value pos
  taken_published : ∀ pos < ring.takes.length, pos ∈ ring.published
  taken : ∀ thread pos, ring.phases thread = .taken pos → ring.takes[pos]? = some thread ∧
    ∀ entry ∈ ring.retired, entry.2.1 ≠ pos
  readers : ∀ pos < ring.takes.length, (∀ entry ∈ ring.retired, entry.2.1 ≠ pos) →
    ∃ thread, ring.phases thread = .taken pos
  retired_value : ∀ entry ∈ ring.retired, ring.takes[entry.2.1]? = some entry.1 ∧
    ∃ owner, ring.claims[entry.2.1]? = some (owner, entry.2.2)
  retired_once : ring.retired.Pairwise fun first second => first.2.1 ≠ second.2.1
  in_order : ring.retired.Pairwise fun first second =>
    first.1 = second.1 → first.2.1 < second.2.1
  in_order_taken : ∀ entry ∈ ring.retired, ∀ pos, ring.phases entry.1 = .taken pos → entry.2.1 < pos

end

variable {Thread T : Type} [DecidableEq Thread] {ring after : Summary Thread T}
  {thread other : Thread} {phase held : Phase T}

theorem go_phases (other : Thread) : (ring.go thread phase).phases other =
    if other = thread then phase else ring.phases other :=
  Function.update_apply ring.phases thread phase other

theorem go_phases_self : (ring.go thread phase).phases thread = phase := by
  rw [go_phases, if_pos rfl]

/-- A call that holds something the moving call does not hold keeps it. -/
theorem go_keeps (holds : ring.phases other = held) (apart : ring.phases thread ≠ held) :
    (ring.go thread phase).phases other = held := by
  rw [go_phases, if_neg]
  · exact holds
  · rintro rfl
    exact apart holds

private theorem of_go_phases (holds : (ring.go thread phase).phases other = held)
    (apart : phase ≠ held) : other ≠ thread ∧ ring.phases other = held := by
  rw [go_phases] at holds
  split at holds
  case isTrue => exact absurd holds apart
  case isFalse different => exact ⟨different, holds⟩

section
omit [DecidableEq Thread]

theorem Sound.initial : Sound ({} : Summary Thread T) := by
  constructor <;> simp

theorem Phase.Reads.of_resting {busy busy' : Prop} (reads : phase.Reads busy)
    (rests : phase.resting = true) : phase.Reads busy' := by
  cases phase <;> simp_all [Phase.Reads, Phase.resting]

theorem Phase.Writes.of_resting {busy busy' : T → Prop} (writes : phase.Writes busy)
    (rests : phase.resting = true) : phase.Writes busy' := by
  cases phase <;> simp_all [Phase.Writes, Phase.resting]

theorem Phase.Reads.mono {busy busy' : Prop} (reads : phase.Reads busy) (imp : busy → busy') : phase.Reads busy' := by
  cases phase with
  | seeking | taken => exact imp reads
  | _ => exact reads

theorem Phase.Writes.mono {busy busy' : T → Prop} (writes : phase.Writes busy)
    (imp : ∀ value, busy value → busy' value) : phase.Writes busy' := by
  cases phase with
  | unclaimed value | claimed value => exact imp value writes
  | _ => exact writes

theorem Phase.Reads.resting {busy : Prop} (reads : phase.Reads busy) (free : ¬ busy) : phase.resting = true := by
  cases phase with
  | idle | popped | empty => rfl
  | seeking | taken => exact absurd reads free
  | _ => exact reads.elim

theorem Phase.Writes.resting {busy : T → Prop} (writes : phase.Writes busy)
    (free : ∀ value, ¬ busy value) : phase.resting = true := by
  cases phase with
  | idle | pushed | full => rfl
  | unclaimed value | claimed value => exact absurd writes (free value)
  | _ => exact writes.elim

end

section
variable (effect : Effect ring thread after)
include effect

theorem Effect.phases_of_ne (apart : other ≠ thread) : after.phases other = ring.phases other := by
  cases effect with
  | moves => rfl
  | _ => exact Function.update_of_ne apart _ _

theorem Effect.claims_prefix : ring.claims <+: after.claims := by
  cases effect with
  | claims => exact prefix_append _ _
  | _ => exact prefix_refl _

/-- What holds of the claims and of the one a thread is about to make holds after it. -/
theorem Effect.forall_claims {Holds : Thread × T → Prop} (old : ∀ claim ∈ ring.claims, Holds claim)
    (new : ∀ value, ring.phases thread = .unclaimed value → Holds (thread, value)) :
    ∀ claim ∈ after.claims, Holds claim := by
  cases effect with
  | claims phase =>
    exact forall_mem_append.mpr ⟨old, forall_mem_singleton.mpr (new _ phase)⟩
  | _ => exact old

theorem Effect.published_prefix : ring.published <+: after.published := by
  cases effect with
  | publishes => exact prefix_append _ _
  | _ => exact prefix_refl _

theorem Effect.takes_prefix : ring.takes <+: after.takes := by
  cases effect with
  | takes => exact prefix_append _ _
  | _ => exact prefix_refl _

theorem Effect.reads {busy : Prop} (reads : (ring.phases other).Reads busy) : (after.phases other).Reads busy := by
  by_cases same : other = thread
  · subst same
    cases effect with
    | moves => exact reads
    | claims phase | publishes phase | refuses phase =>
      rw [phase] at reads
      exact reads.elim
    | takes phase =>
      rw [phase] at reads
      simpa only [go_phases_self, Phase.Reads] using reads
    | retires | empty => simp only [go_phases_self, Phase.Reads]
  · rw [effect.phases_of_ne same]
    exact reads

theorem Effect.writes {busy : T → Prop} (writes : (ring.phases other).Writes busy) :
    (after.phases other).Writes busy := by
  by_cases same : other = thread
  · subst same
    cases effect with
    | moves => exact writes
    | claims phase =>
      rw [phase] at writes
      simpa only [go_phases_self, Phase.Writes] using writes
    | publishes | refuses => simp only [go_phases_self, Phase.Writes]
    | takes phase | retires phase | empty phase =>
      rw [phase] at writes
      exact writes.elim
  · rw [effect.phases_of_ne same]
    exact writes

end

section
variable (sound : Sound ring)
include sound

/-- A call that holds no position may begin, give up or end. -/
theorem Sound.go (loose : ∀ value pos, ring.phases thread ≠ .claimed value pos)
    (free : ∀ pos, ring.phases thread ≠ .taken pos)
    (loose' : ∀ value pos, phase ≠ .claimed value pos) (free' : ∀ pos, phase ≠ .taken pos) :
    Sound (ring.go thread phase) where
  __ := sound
  claimed other value pos holds := sound.claimed other value pos (of_go_phases holds (loose' value pos)).2
  writers pos inside fresh := by
    obtain ⟨owner, value, holds⟩ := sound.writers pos inside fresh
    exact ⟨owner, value, go_keeps holds (loose value pos)⟩
  taken other pos holds := sound.taken other pos (of_go_phases holds (free' pos)).2
  readers pos inside busy := by
    obtain ⟨reader, holds⟩ := sound.readers pos inside busy
    exact ⟨reader, go_keeps holds (free pos)⟩
  in_order_taken entry member pos holds := sound.in_order_taken entry member pos (of_go_phases holds (free' pos)).2

theorem Sound.push (rests : (ring.phases thread).resting = true) (value : T) :
    Sound (ring.go thread (.unclaimed value)) := by
  refine sound.go ?_ ?_ (by simp) (by simp) <;> intros <;> intro holds <;>
    simp [holds, Phase.resting] at rests

theorem Sound.pop (rests : (ring.phases thread).resting = true) : Sound (ring.go thread .seeking) := by
  refine sound.go ?_ ?_ (by simp) (by simp) <;> intros <;> intro holds <;>
    simp [holds, Phase.resting] at rests

theorem Sound.claim {value : T} (phase : ring.phases thread = .unclaimed value) :
    Sound { ring.go thread (.claimed value ring.claims.length) with claims := ring.claims ++ [(thread, value)] } where
  __ := sound
  published_lt pos published := by
    have earlier := sound.published_lt pos published
    rw [length_append]
    omega
  claimed other held pos holds := by
    rw [go_phases] at holds
    split at holds
    case isTrue same =>
      cases holds
      refine ⟨same ▸ List.getElem?_concat_length, fun published => ?_⟩
      exact absurd (sound.published_lt _ published) (Nat.lt_irrefl _)
    case isFalse =>
      obtain ⟨found, fresh⟩ := sound.claimed other held pos holds
      exact ⟨(List.getElem?_append_left (List.getElem?_eq_some_iff.mp found).1).trans found, fresh⟩
  writers pos inside fresh := by
    rcases Nat.lt_or_ge pos ring.claims.length with earlier | last
    · obtain ⟨owner, held, holds⟩ := sound.writers pos earlier fresh
      exact ⟨owner, held, go_keeps holds (by simp [phase])⟩
    · rw [length_append, length_singleton] at inside
      have same : pos = ring.claims.length := by omega
      exact ⟨thread, value, same ▸ go_phases_self⟩
  taken other pos holds := sound.taken other pos (of_go_phases holds (by simp)).2
  readers pos inside busy := by
    obtain ⟨reader, holds⟩ := sound.readers pos inside busy
    exact ⟨reader, go_keeps holds (by simp [phase])⟩
  retired_value entry member := by
    obtain ⟨taker, owner, found⟩ := sound.retired_value entry member
    have inside := (List.getElem?_eq_some_iff.mp found).1
    exact ⟨taker, owner, (List.getElem?_append_left inside).trans found⟩
  in_order_taken entry member pos holds := sound.in_order_taken entry member pos (of_go_phases holds (by simp)).2

theorem Sound.publish {value : T} {pos : Nat} (phase : ring.phases thread = .claimed value pos) :
    Sound { ring.go thread (.pushed value) with published := ring.published ++ [pos] } where
  __ := sound
  published_lt other published := by
    rcases mem_append.mp published with earlier | last
    · exact sound.published_lt other earlier
    · rw [mem_singleton.mp last]
      exact (List.getElem?_eq_some_iff.mp (sound.claimed thread value pos phase).1).1
  claimed other held at_ holds := by
    obtain ⟨apart, holds⟩ := of_go_phases holds (by simp)
    obtain ⟨found, fresh⟩ := sound.claimed other held at_ holds
    refine ⟨found, fun published => ?_⟩
    rcases mem_append.mp published with earlier | last
    · exact fresh earlier
    · -- Two calls that hold one position are the same call.
      rw [mem_singleton.mp last, (sound.claimed thread value pos phase).1] at found
      cases found
      exact apart rfl
  writers other inside fresh := by
    obtain ⟨owner, held, holds⟩ := sound.writers other inside fun earlier => fresh (mem_append_left _ earlier)
    refine ⟨owner, held, go_keeps holds ?_⟩
    rw [phase]
    rintro ⟨⟩
    exact fresh (mem_append_right _ (mem_singleton_self _))
  taken_published other inside := mem_append_left _ (sound.taken_published other inside)
  taken other pos holds := sound.taken other pos (of_go_phases holds (by simp)).2
  readers other inside busy := by
    obtain ⟨reader, holds⟩ := sound.readers other inside busy
    exact ⟨reader, go_keeps holds (by simp [phase])⟩
  in_order_taken entry member pos holds := sound.in_order_taken entry member pos (of_go_phases holds (by simp)).2

end

omit [DecidableEq Thread] in
theorem Sound.retired_lt (sound : Sound ring) {entry : Thread × Nat × T}
    (member : entry ∈ ring.retired) : entry.2.1 < ring.takes.length :=
  (List.getElem?_eq_some_iff.mp (sound.retired_value entry member).1).1

theorem Sound.take (sound : Sound ring) (phase : ring.phases thread = .seeking)
    (ready : ring.takes.length ∈ ring.published) :
    Sound { ring.go thread (.taken ring.takes.length) with takes := ring.takes ++ [thread] } where
  __ := sound
  claimed other value pos holds := sound.claimed other value pos (of_go_phases holds (by simp)).2
  writers pos inside fresh := by
    obtain ⟨owner, value, holds⟩ := sound.writers pos inside fresh
    exact ⟨owner, value, go_keeps holds (by simp [phase])⟩
  taken_published pos inside := by
    rw [length_append, length_singleton] at inside
    rcases Nat.lt_or_ge pos ring.takes.length with earlier | last
    · exact sound.taken_published pos earlier
    · have same : pos = ring.takes.length := by omega
      exact same ▸ ready
  taken other pos holds := by
    rw [go_phases] at holds
    split at holds
    case isTrue same =>
      cases holds
      exact ⟨same ▸ List.getElem?_concat_length, fun _ member => (sound.retired_lt member).ne⟩
    case isFalse =>
      obtain ⟨found, busy⟩ := sound.taken other pos holds
      exact ⟨(List.getElem?_append_left (List.getElem?_eq_some_iff.mp found).1).trans found, busy⟩
  readers pos inside busy := by
    rcases Nat.lt_or_ge pos ring.takes.length with earlier | last
    · obtain ⟨reader, holds⟩ := sound.readers pos earlier busy
      exact ⟨reader, go_keeps holds (by simp [phase])⟩
    · rw [length_append, length_singleton] at inside
      have same : pos = ring.takes.length := by omega
      exact ⟨thread, same ▸ go_phases_self⟩
  retired_value entry member := by
    obtain ⟨taker, found⟩ := sound.retired_value entry member
    exact ⟨(List.getElem?_append_left (sound.retired_lt member)).trans taker, found⟩
  in_order_taken entry member pos holds := by
    rw [go_phases] at holds
    split at holds
    case isTrue =>
      cases holds
      exact sound.retired_lt member
    case isFalse => exact sound.in_order_taken entry member pos holds

theorem Sound.retire (sound : Sound ring) {owner : Thread} {pos : Nat} {out : T}
    (phase : ring.phases thread = .taken pos) (found : ring.claims[pos]? = some (owner, out)) :
    Sound { ring.go thread (.popped out) with retired := ring.retired ++ [(thread, pos, out)] } where
  __ := sound
  claimed other value pos holds := sound.claimed other value pos (of_go_phases holds (by simp)).2
  writers pos inside fresh := by
    obtain ⟨owner, value, holds⟩ := sound.writers pos inside fresh
    exact ⟨owner, value, go_keeps holds (by simp [phase])⟩
  taken other at_ holds := by
    obtain ⟨apart, holds⟩ := of_go_phases holds (by simp)
    obtain ⟨taker, busy⟩ := sound.taken other at_ holds
    refine ⟨taker, fun entry member => ?_⟩
    rcases mem_append.mp member with earlier | last
    · exact busy entry earlier
    · rw [mem_singleton.mp last]
      rintro rfl
      rw [(sound.taken thread pos phase).1] at taker
      cases taker
      exact apart rfl
  readers other inside busy := by
    obtain ⟨reader, holds⟩ := sound.readers other inside fun entry member => busy entry (mem_append_left _ member)
    refine ⟨reader, go_keeps holds ?_⟩
    rw [phase]
    rintro ⟨⟩
    exact busy _ (mem_append_right _ (mem_singleton_self _)) rfl
  retired_value entry member := by
    rcases mem_append.mp member with earlier | last
    · exact sound.retired_value entry earlier
    · rw [mem_singleton.mp last]
      exact ⟨(sound.taken thread pos phase).1, owner, found⟩
  retired_once := by
    refine pairwise_append.mpr ⟨sound.retired_once, pairwise_singleton _ _, ?_⟩
    intro entry member last inside
    rw [mem_singleton.mp inside]
    exact (sound.taken thread pos phase).2 entry member
  in_order := by
    refine pairwise_append.mpr ⟨sound.in_order, pairwise_singleton _ _, ?_⟩
    intro entry member last inside same
    rw [mem_singleton.mp inside] at same ⊢
    exact sound.in_order_taken entry member pos (same ▸ phase)
  in_order_taken entry member at_ holds := by
    obtain ⟨apart, holds⟩ := of_go_phases holds (by simp)
    rcases mem_append.mp member with earlier | last
    · exact sound.in_order_taken entry earlier at_ holds
    · rw [mem_singleton.mp last] at apart
      exact absurd rfl apart

theorem Sound.effect (sound : Sound ring) (effect : Effect ring thread after) : Sound after := by
  cases effect with
  | moves => exact sound
  | claims phase => exact sound.claim phase
  | publishes phase => exact sound.publish phase
  | refuses phase | empty phase => refine sound.go ?_ ?_ ?_ ?_ <;> simp [phase]
  | takes phase ready => exact sound.take phase ready
  | retires phase found => exact sound.retire phase found

end AnimusCore.RingBuffer
