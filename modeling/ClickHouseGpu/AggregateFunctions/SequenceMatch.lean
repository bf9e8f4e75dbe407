import Mathlib.Data.List.Basic

/-
  ClickHouseGpu.AggregateFunctions.SequenceMatch — the pattern language of `sequenceMatch` and
  `sequenceCount` (AggregateFunctions/AggregateFunctionSequenceMatch.h).

  The constructor checks the argument count and parses the pattern, such as
  `(?1).*(?t<=5)(?2)`, into actions behind a leading `.*` (`parsePattern`). `match` runs the
  actions over the rows that have an event, sorted by time: a hand-written backtracking
  automaton over an action iterator, an event iterator and the event a time condition is
  measured from (`base_it`), with a stack of `(action, event, base)` triples to go back to. The
  main loop throws TOO_SLOW after 1000000 iterations; after it, a second loop skips the trailing
  actions that match the empty sequence.

  Iterators are indices. Reading through one is a checked read that fails with
  `actionOutOfRange` or `eventOutOfRange` where the code reads past its array (undefined
  behaviour); `std::bitset::test` past bit 31 throws `std::out_of_range` (`bitsetOutOfRange`).
  Pattern texts are lists of characters.

  Proved:
  - `create_specificEvent_extra`: every `SpecificEvent` of an accepted pattern names an event
    below the number of event arguments, or is `(?0)`, stored as event `0 - 1 = 0xFFFFFFFF`.
  - `matchLoop_inv`: along every run the main loop reads actions and events only in range, and
    ends in range (or throws TOO_SLOW, or `test` throws for an event number past 31).
  - `skipEmpty_ok`: the trailing loop stays in range when the last action does not match the
    empty sequence.
  - `sequence_match_reads_out_of_range`: `(?0)` is accepted with 2 events and makes `match`
    throw from `test`; after `(?1).*` has consumed the only event, the trailing loop skips the
    final `.*` and reads the action past the end.
-/

namespace ClickHouseGpu.AggregateFunctions.SequenceMatch

/-- `AggregateFunctionSequenceMatchData::max_events`: events are the bits of a `std::bitset<32>`. -/
def max_events : Nat := 32

def sequence_match_max_iterations : Nat := 1000000

inductive PatternActionType where
  | SpecificEvent
  | AnyEvent
  | KleeneStar
  | TimeLessOrEqual
  | TimeLess
  | TimeGreaterOrEqual
  | TimeGreater
  deriving DecidableEq, Repr

structure PatternAction where
  type : PatternActionType
  extra : UInt32
  deriving DecidableEq, Repr

/-- The constructor's exceptions: SYNTAX_ERROR from `throw_exception`, with the text from `pos`
    on and the position of `pos`, which its message quotes; the two argument-count errors; and
    BAD_ARGUMENTS. -/
inductive PatternError where
  | syntaxError (msg : String) (rest : List Char) (position : Nat)
  | tooLessArguments
  | tooManyArguments
  | badArguments (msg : String)
  deriving DecidableEq, Repr

/-! ## Parsing the pattern -/

/-- The loop of `readIntTextImpl<UInt64, bool>`: `'+'` is skipped, a digit is accumulated modulo
    `2 ^ 64`, and anything else ends the number; a `'-'` makes the unsigned read return `false`
    where it stands, which the pointer overload ignores. -/
def readUIntTextLoop : List Char → UInt64 → UInt64 × List Char
  | [], x => (x, [])
  | c :: cs, x =>
    if c = '+' then readUIntTextLoop cs x
    else if c.isDigit then readUIntTextLoop cs (x * 10 + (c.toNat - '0'.toNat).toUInt64)
    else (x, c :: cs)

/-- `tryReadIntText(x, pos, end)`: the value read and the text after what was consumed. -/
def tryReadIntText (s : List Char) : UInt64 × List Char := readUIntTextLoop s 0

/-- The time condition after `(?t`: the `match("<=")`, `match("<")`, `match(">=")`, `match(">")`
    chain, with the text after it. -/
def timeCondition : List Char → Option (PatternActionType × List Char)
  | '<' :: '=' :: rest => some (.TimeLessOrEqual, rest)
  | '<' :: rest => some (.TimeLess, rest)
  | '>' :: '=' :: rest => some (.TimeGreaterOrEqual, rest)
  | '>' :: rest => some (.TimeGreater, rest)
  | _ => none

/-- The actions a time condition may follow. -/
def isEventCondition : PatternActionType → Bool
  | .SpecificEvent | .AnyEvent | .KleeneStar => true
  | _ => false

/-- `if (!match(")")) throw_exception("Expected closing parenthesis, found")`. -/
def closing (total : Nat) (action : PatternAction) : List Char → Except PatternError (PatternAction × List Char)
  | ')' :: rest => .ok (action, rest)
  | rest => .error (.syntaxError "Expected closing parenthesis, found" rest (total - rest.length))

/-- The action of one `(?...)` group, read from the text after `(?`, and the text after its `)`.
    `total` is the pattern's length, so that `total - rest.length` is `pos - begin`. -/
def parseCondition (arg_count total : Nat) (actions : List PatternAction) :
    List Char → Except PatternError (PatternAction × List Char)
  | 't' :: rest =>
    match timeCondition rest with
    | none => .error (.syntaxError "Unknown time condition" rest (total - rest.length))
    | some (type, rest) =>
      let duration := (tryReadIntText rest).1
      let pos := (tryReadIntText rest).2
      if pos.length = rest.length then .error (.syntaxError "Could not parse number" pos (total - pos.length))
      else if !(actions.getLast?.all fun a => isEventCondition a.type) then
        .error (.badArguments "Temporal condition should be preceeded by an event condition")
      else closing total ⟨type, duration.toUInt32⟩ pos
  | rest =>
    let event_number := (tryReadIntText rest).1
    let pos := (tryReadIntText rest).2
    if pos.length = rest.length then .error (.syntaxError "Could not parse number" pos (total - pos.length))
    -- only `event_number > arg_count - 1` is checked: `0` passes and is stored as `0 - 1`
    else if event_number.toNat > arg_count - 1 then
      .error (.badArguments s!"Event number {event_number} is out of range")
    else closing total ⟨.SpecificEvent, (event_number - 1).toUInt32⟩ pos

theorem readUIntTextLoop_length : ∀ (s : List Char) (x : UInt64), (readUIntTextLoop s x).2.length ≤ s.length
  | [], _ => Nat.le_refl _
  | c :: cs, x => by
    rw [readUIntTextLoop]
    split
    · exact Nat.le_succ_of_le (readUIntTextLoop_length cs x)
    · split
      · exact Nat.le_succ_of_le (readUIntTextLoop_length cs _)
      · exact Nat.le_refl _

theorem tryReadIntText_length (s : List Char) : (tryReadIntText s).2.length ≤ s.length :=
  readUIntTextLoop_length s 0

theorem timeCondition_length {s r : List Char} {t : PatternActionType} (h : timeCondition s = some (t, r)) :
    r.length < s.length := by
  unfold timeCondition at h
  split at h <;> simp only [Option.some.injEq, Prod.mk.injEq, reduceCtorEq] at h
  all_goals
    obtain ⟨-, rfl⟩ := h
    simp only [List.length_cons]
    omega

theorem closing_length {total : Nat} {a a' : PatternAction} {s r : List Char} (h : closing total a s = .ok (a', r)) :
    r.length < s.length := by
  unfold closing at h
  split at h
  · cases h
    simp
  · cases h

/-- A group consumes its text up to its `)`. -/
theorem parseCondition_length {arg_count total : Nat} {actions : List PatternAction} {s r : List Char}
    {a : PatternAction} (h : parseCondition arg_count total actions s = .ok (a, r)) : r.length < s.length := by
  unfold parseCondition at h
  split at h
  · split at h
    · cases h
    · rename_i rest _ type rest₁ ht
      have h₁ := timeCondition_length ht
      have h₂ := tryReadIntText_length rest₁
      dsimp only at h
      split_ifs at h
      have := closing_length h
      simp only [List.length_cons]
      omega
  · have h₂ := tryReadIntText_length s
    dsimp only at h
    split_ifs at h
    have := closing_length h
    omega

/-- The loop `while (pos < end)` of `parsePattern`, with the actions read so far. -/
def parsePatternLoop (arg_count total : Nat) (actions : List PatternAction) :
    List Char → Except PatternError (List PatternAction)
  | [] => .ok actions
  | '(' :: '?' :: rest =>
    match _h : parseCondition arg_count total actions rest with
    | .error e => .error e
    | .ok (action, rest') => parsePatternLoop arg_count total (actions ++ [action]) rest'
  | '.' :: '*' :: rest => parsePatternLoop arg_count total (actions ++ [⟨.KleeneStar, 0⟩]) rest
  | '.' :: rest => parsePatternLoop arg_count total (actions ++ [⟨.AnyEvent, 0⟩]) rest
  | rest => .error (.syntaxError "Could not parse pattern, unexpected starting symbol" rest (total - rest.length))
termination_by s => s.length
decreasing_by
  all_goals simp only [List.length_cons]
  · have := parseCondition_length _h
    omega
  all_goals omega

/-- `parsePattern`: the actions start with a `.*`. -/
def parsePattern (pattern : List Char) (arg_count : Nat) : Except PatternError (List PatternAction) :=
  parsePatternLoop arg_count pattern.length [⟨.KleeneStar, 0⟩] pattern

/-- The constructor `AggregateFunctionSequenceBase(arguments, pattern)` with `arg_count`
    arguments: the time column and `arg_count - 1` event columns. -/
def create (arg_count : Nat) (pattern : List Char) : Except PatternError (List PatternAction) :=
  if arg_count < 3 then .error .tooLessArguments
  else if arg_count - 1 > max_events then .error .tooManyArguments
  else parsePattern pattern arg_count

/-- What a pattern's event actions may refer to: an event below `arg_count - 1`, or the `0 - 1`
    that `(?0)` leaves. -/
def EventsInRange (arg_count : Nat) (actions : List PatternAction) : Prop :=
  ∀ a ∈ actions, a.type = .SpecificEvent → a.extra.toNat < arg_count - 1 ∨ a.extra = 4294967295

theorem closing_action {total : Nat} {a a' : PatternAction} {s r : List Char} (h : closing total a s = .ok (a', r)) :
    a' = a := by
  unfold closing at h
  split at h
  · cases h
    rfl
  · cases h

theorem timeCondition_type {s r : List Char} {t : PatternActionType} (h : timeCondition s = some (t, r)) :
    t ≠ .SpecificEvent := by
  unfold timeCondition at h
  split at h <;> simp only [Option.some.injEq, Prod.mk.injEq, reduceCtorEq] at h
  all_goals
    obtain ⟨rfl, -⟩ := h
    decide

/-- The index stored for the event number `n` once `n > k` has been ruled out. -/
theorem eventIndex_of_le {n : UInt64} {k : Nat} (hk : k ≤ max_events) (hn : ¬ n.toNat > k) :
    ((n - 1).toUInt32).toNat < k ∨ (n - 1).toUInt32 = 4294967295 := by
  by_cases h0 : n = 0
  · subst h0
    exact .inr (by decide)
  · left
    have h1 : 1 ≤ n.toNat := by
      rcases Nat.eq_zero_or_pos n.toNat with h | h
      · exact absurd (UInt64.toNat_inj.mp (h.trans UInt64.toNat_zero.symm)) h0
      · exact h
    rw [UInt64.toNat_toUInt32, UInt64.toNat_sub_of_le _ _ (UInt64.le_iff_toNat_le.mpr (by simpa using h1))]
    simp only [UInt64.toNat_one]
    unfold max_events at hk
    omega

theorem parseCondition_extra {arg_count total : Nat} {actions : List PatternAction} {s r : List Char}
    {a : PatternAction} (hk : arg_count - 1 ≤ max_events) (h : parseCondition arg_count total actions s = .ok (a, r)) :
    a.type = .SpecificEvent → a.extra.toNat < arg_count - 1 ∨ a.extra = 4294967295 := by
  unfold parseCondition at h
  split at h
  · -- a time condition
    split at h
    · cases h
    · rename_i ht
      dsimp only at h
      split_ifs at h
      rw [closing_action h]
      exact fun htype => absurd htype (timeCondition_type ht)
  · dsimp only at h
    split_ifs at h with _ hn
    rw [closing_action h]
    exact fun _ => eventIndex_of_le hk hn

/-- Along the parse, every event action stays in range. -/
theorem parsePatternLoop_eventsInRange {arg_count total : Nat} (hk : arg_count - 1 ≤ max_events)
    {actions : List PatternAction} {s : List Char} {result : List PatternAction}
    (h : parsePatternLoop arg_count total actions s = .ok result) (hacts : EventsInRange arg_count actions) :
    EventsInRange arg_count result := by
  fun_induction parsePatternLoop arg_count total actions s with
  | case1 =>
    cases h
    exact hacts
  | case2 => cases h
  | case3 actions rest action rest' hcond ih =>
    refine ih h fun a ha => ?_
    rcases List.mem_append.mp ha with ha | ha
    · exact hacts a ha
    · rw [List.mem_singleton.mp ha]
      exact parseCondition_extra hk hcond
  | case4 actions rest ih =>
    refine ih h fun a ha => ?_
    rcases List.mem_append.mp ha with ha | ha
    · exact hacts a ha
    · simp [List.mem_singleton.mp ha]
  | case5 actions rest _ ih =>
    refine ih h fun a ha => ?_
    rcases List.mem_append.mp ha with ha | ha
    · exact hacts a ha
    · simp [List.mem_singleton.mp ha]
  | case6 => cases h

/-- Every event action of an accepted pattern refers to one of the `arg_count - 1` events, or
    is `(?0)`, stored as `0xFFFFFFFF`. -/
theorem create_specificEvent_extra {arg_count : Nat} {pattern : List Char} {actions : List PatternAction}
    (h : create arg_count pattern = .ok actions) : EventsInRange arg_count actions := by
  unfold create at h
  split_ifs at h with h₁ h₂
  refine parsePatternLoop_eventsInRange (Nat.le_of_not_lt h₂) h ?_
  simp [EventsInRange]

/-! ## Matching -/

/-- A row with at least one event: `std::pair<Timestamp, Events>`. -/
structure TimestampEvents where
  first : UInt32
  second : BitVec 32
  deriving DecidableEq, Repr

inductive MatchError where
  | actionOutOfRange (index : Nat)
  | eventOutOfRange (index : Nat)
  | bitsetOutOfRange
  | tooSlow
  deriving DecidableEq, Repr

/-- The iterators of `match` and its backtracking stack. -/
structure MatchState where
  action_it : Nat
  events_it : Nat
  base_it : Nat
  back_stack : List (Nat × Nat × Nat)
  deriving DecidableEq, Repr

def actionAt (actions : List PatternAction) (i : Nat) : Except MatchError PatternAction :=
  match actions[i]? with
  | some a => .ok a
  | none => .error (.actionOutOfRange i)

def eventAt (events : List TimestampEvents) (i : Nat) : Except MatchError TimestampEvents :=
  match events[i]? with
  | some e => .ok e
  | none => .error (.eventOutOfRange i)

/-- `std::bitset<32>::test`, which checks its position. -/
def test (events : BitVec 32) (pos : UInt32) : Except MatchError Bool :=
  if pos.toNat < max_events then .ok (events.getLsbD pos.toNat) else .error .bitsetOutOfRange

theorem test_error {events : BitVec 32} {pos : UInt32} {err : MatchError} (h : test events pos = .error err) :
    err = .bitsetOutOfRange := by
  unfold test at h
  split at h
  · cases h
  · cases h
    rfl

/-- `do_backtrack`: pop entries, taking each one's action, next event and base, until the next
    event is not the end. `(false, s)` when the stack runs out, with the iterators of the last
    entry popped. -/
def doBacktrack (n : Nat) (s : MatchState) : List (Nat × Nat × Nat) → Bool × MatchState
  | [] => (false, { s with back_stack := [] })
  | (a, e, b) :: st => if e + 1 ≠ n then (true, ⟨a, e + 1, b, st⟩) else doBacktrack n ⟨a, e + 1, b, st⟩ st

/-- A consumed event: the base moves to it, and action and event move on. -/
def MatchState.advance (s : MatchState) : MatchState :=
  ⟨s.action_it + 1, s.events_it + 1, s.events_it, s.back_stack⟩

/-- A satisfied `.*` or time condition: remember where we are, move the base to the current
    event and go to the next action. -/
def MatchState.push (s : MatchState) : MatchState :=
  ⟨s.action_it + 1, s.events_it, s.events_it, (s.action_it, s.events_it, s.base_it) :: s.back_stack⟩

/-- The comparison of a time condition, on the `UInt32` difference of the timestamps. -/
def timeHolds : PatternActionType → UInt32 → UInt32 → Bool
  | .TimeLessOrEqual, d, extra => d ≤ extra
  | .TimeLess, d, extra => d < extra
  | .TimeGreaterOrEqual, d, extra => d ≥ extra
  | .TimeGreater, d, extra => d > extra
  | _, _, _ => false

/-- One iteration of the main loop at action `act` and event `ev`: `(true, s)` goes on with `s`,
    `(false, s)` breaks out with `s`. A failed `<`/`<=` backtracks; a failed `>`/`>=` tries the
    next event and backtracks only when there is none. -/
def matchStep (events : List TimestampEvents) (s : MatchState) (act : PatternAction) (ev : TimestampEvents) :
    Except MatchError (Bool × MatchState) :=
  match act.type with
  | .SpecificEvent => do
    let hit ← test ev.second act.extra
    if hit then pure (true, s.advance) else pure (doBacktrack events.length s s.back_stack)
  | .AnyEvent => pure (true, s.advance)
  | .KleeneStar => pure (true, s.push)
  | .TimeLessOrEqual | .TimeLess => do
    let base ← eventAt events s.base_it
    if timeHolds act.type (ev.first - base.first) act.extra then pure (true, s.push)
    else pure (doBacktrack events.length s s.back_stack)
  | .TimeGreaterOrEqual | .TimeGreater => do
    let base ← eventAt events s.base_it
    if timeHolds act.type (ev.first - base.first) act.extra then pure (true, s.push)
    else if s.events_it + 1 = events.length then
      pure (doBacktrack events.length { s with events_it := s.events_it + 1 } s.back_stack)
    else pure (true, { s with events_it := s.events_it + 1 })

/-- One iteration's reads of `*action_it` and `*events_it`, and its step. -/
def matchIter (actions : List PatternAction) (events : List TimestampEvents) (s : MatchState) :
    Except MatchError (Bool × MatchState) := do
  let act ← actionAt actions s.action_it
  let ev ← eventAt events s.events_it
  matchStep events s act ev

/-- The main loop `while (action_it != action_end && events_it != events_end)`; `left` is
    `sequence_match_max_iterations - i`, and the iteration that takes `i` past the bound throws. -/
def matchLoop (actions : List PatternAction) (events : List TimestampEvents) :
    Nat → MatchState → Except MatchError MatchState
  | left, s =>
    if s.action_it ≠ actions.length ∧ s.events_it ≠ events.length then
      match matchIter actions events s with
      | .error err => .error err
      | .ok (false, s') => .ok s'
      | .ok (true, s') =>
        match left with
        | 0 => .error .tooSlow
        | left + 1 => matchLoop actions events left s'
    else .ok s

/-- What one step can do: consume the event, push, try the next event, or backtrack (from
    this event or from the next one). -/
theorem matchStep_cases {events : List TimestampEvents} {s : MatchState} {act : PatternAction}
    {ev : TimestampEvents} {go : Bool} {s' : MatchState} (h : matchStep events s act ev = .ok (go, s')) :
    (go = true ∧ s' = s.advance) ∨ (go = true ∧ s' = s.push) ∨
      (go = true ∧ s' = { s with events_it := s.events_it + 1 }) ∨
      (go, s') = doBacktrack events.length s s.back_stack ∨
      (go, s') = doBacktrack events.length { s with events_it := s.events_it + 1 } s.back_stack := by
  unfold matchStep at h
  simp only [bind, Except.bind, pure, Except.pure] at h
  -- by the action's type, then by the outcome of `test`, of the read of the base and of the comparison
  repeat' split at h
  all_goals simp only [reduceCtorEq, Except.ok.injEq] at h
  all_goals
    obtain ⟨rfl, rfl⟩ := Prod.mk.inj h
    simp

/-- Where the iterators of `match` may be: the action and event iterators at most at their ends,
    the base at an event or at the event iterator, and every stack entry at an action and two
    events. -/
structure LoopInv (na ne : Nat) (s : MatchState) : Prop where
  action_le : s.action_it ≤ na
  events_le : s.events_it ≤ ne
  base : s.base_it < ne ∨ s.base_it = s.events_it
  stack : ∀ x ∈ s.back_stack, x.1 < na ∧ x.2.1 < ne ∧ x.2.2 < ne

section Inv

variable {na ne : Nat} {s : MatchState}

theorem LoopInv.base_lt (hs : LoopInv na ne s) (he : s.events_it < ne) : s.base_it < ne := by
  rcases hs.base with h | h
  · exact h
  · exact h ▸ he

theorem LoopInv.advance (hs : LoopInv na ne s) (ha : s.action_it < na) (he : s.events_it < ne) :
    LoopInv na ne s.advance :=
  ⟨ha, he, .inl he, hs.stack⟩

theorem LoopInv.push (hs : LoopInv na ne s) (ha : s.action_it < na) (he : s.events_it < ne) :
    LoopInv na ne s.push := by
  refine ⟨ha, hs.events_le, .inr rfl, ?_⟩
  intro x hx
  rcases List.mem_cons.mp hx with rfl | hx
  · exact ⟨ha, he, hs.base_lt he⟩
  · exact hs.stack x hx

theorem LoopInv.nextEvent (hs : LoopInv na ne s) (he : s.events_it < ne) :
    LoopInv na ne { s with events_it := s.events_it + 1 } :=
  ⟨hs.action_le, he, .inl (hs.base_lt he), hs.stack⟩

/-- Backtracking lands on a stack entry, or leaves the iterators where they were. -/
theorem doBacktrack_inv : ∀ (st : List (Nat × Nat × Nat)) (s : MatchState), LoopInv na ne s →
    (∀ x ∈ st, x.1 < na ∧ x.2.1 < ne ∧ x.2.2 < ne) → LoopInv na ne (doBacktrack ne s st).2
  | [], s, hs, _ => ⟨hs.action_le, hs.events_le, hs.base, by simp [doBacktrack]⟩
  | (a, e, b) :: st, _, _, hst => by
    obtain ⟨ha, he, hb⟩ := hst _ List.mem_cons_self
    have hrest : ∀ x ∈ st, x.1 < na ∧ x.2.1 < ne ∧ x.2.2 < ne := fun x hx => hst x (List.mem_cons_of_mem _ hx)
    have hnew : LoopInv na ne ⟨a, e + 1, b, st⟩ := ⟨Nat.le_of_lt ha, he, .inl hb, hrest⟩
    rw [doBacktrack]
    split
    · exact hnew
    · exact doBacktrack_inv st _ hnew hrest

end Inv

theorem actionAt_of_lt {actions : List PatternAction} {i : Nat} (h : i < actions.length) :
    actionAt actions i = .ok actions[i] := by
  simp [actionAt, List.getElem?_eq_getElem h]

theorem eventAt_of_lt {events : List TimestampEvents} {i : Nat} (h : i < events.length) :
    eventAt events i = .ok events[i] := by
  simp [eventAt, List.getElem?_eq_getElem h]

/-- One iteration from a state in range ends in range. -/
theorem matchIter_inv {actions : List PatternAction} {events : List TimestampEvents} {s : MatchState}
    (hs : LoopInv actions.length events.length s) (ha : s.action_it < actions.length)
    (he : s.events_it < events.length) {go : Bool} {s' : MatchState}
    (h : matchIter actions events s = .ok (go, s')) : LoopInv actions.length events.length s' := by
  simp only [matchIter, actionAt_of_lt ha, eventAt_of_lt he] at h
  rcases matchStep_cases h with ⟨-, rfl⟩ | ⟨-, rfl⟩ | ⟨-, rfl⟩ | hb | hb
  · exact hs.advance ha he
  · exact hs.push ha he
  · exact hs.nextEvent he
  · rw [show s' = _ from congrArg Prod.snd hb]
    exact doBacktrack_inv _ _ hs hs.stack
  · rw [show s' = _ from congrArg Prod.snd hb]
    exact doBacktrack_inv _ _ (hs.nextEvent he) hs.stack

/-- An iteration from a state in range reads its action, its event and its base in range: it
    can only fail in `test`, for an event number past 31. -/
theorem matchIter_error {actions : List PatternAction} {events : List TimestampEvents} {s : MatchState}
    (hs : LoopInv actions.length events.length s) (ha : s.action_it < actions.length)
    (he : s.events_it < events.length) {err : MatchError} (h : matchIter actions events s = .error err) :
    err = .bitsetOutOfRange := by
  simp only [matchIter, actionAt_of_lt ha, eventAt_of_lt he] at h
  unfold matchStep at h
  simp only [bind, Except.bind, pure, Except.pure, eventAt_of_lt (hs.base_lt he)] at h
  repeat' split at h
  all_goals simp only [reduceCtorEq, Except.error.injEq] at h
  -- what is left is the error of `test`
  rename_i htest
  rw [← h]
  exact test_error htest

/-- Along every run of the main loop from a state in range, every read is in range and the loop
    ends in range, unless it throws TOO_SLOW or `test` throws. -/
theorem matchLoop_inv (actions : List PatternAction) (events : List TimestampEvents) :
    ∀ (left : Nat) (s : MatchState), LoopInv actions.length events.length s →
      (∃ s', matchLoop actions events left s = .ok s' ∧ LoopInv actions.length events.length s') ∨
        matchLoop actions events left s = .error .tooSlow ∨
        matchLoop actions events left s = .error .bitsetOutOfRange := by
  intro left
  induction left with
  | zero =>
    intro s hs
    rw [matchLoop]
    split
    · rename_i hrun
      have ha := Nat.lt_of_le_of_ne hs.action_le hrun.1
      have he := Nat.lt_of_le_of_ne hs.events_le hrun.2
      split
      · rename_i err h
        exact .inr (.inr (by rw [matchIter_error hs ha he h]))
      · exact .inl ⟨_, rfl, matchIter_inv hs ha he ‹_›⟩
      · exact .inr (.inl rfl)
    · exact .inl ⟨s, rfl, hs⟩
  | succ left ih =>
    intro s hs
    rw [matchLoop]
    split
    · rename_i hrun
      have ha := Nat.lt_of_le_of_ne hs.action_le hrun.1
      have he := Nat.lt_of_le_of_ne hs.events_le hrun.2
      split
      · rename_i err h
        exact .inr (.inr (by rw [matchIter_error hs ha he h]))
      · exact .inl ⟨_, rfl, matchIter_inv hs ha he ‹_›⟩
      · exact ih _ (matchIter_inv hs ha he ‹_›)
    · exact .inl ⟨s, rfl, hs⟩

/-- The actions that match the empty sequence at the end. -/
def matchesEmpty (a : PatternAction) : Bool :=
  match a.type with
  | .KleeneStar | .TimeLessOrEqual | .TimeLess => true
  | .TimeGreaterOrEqual => a.extra = 0
  | _ => false

/-- The loop "match multiple empty strings at end", on the actions from `action_it` on (`i` is
    its index): it reads each action with no check against the end. -/
def skipEmpty : List PatternAction → Nat → Except MatchError Nat
  | [], i => .error (.actionOutOfRange i)
  | a :: rest, i => if matchesEmpty a then skipEmpty rest (i + 1) else .ok i

/-- `match(events_it, events_end)` from the event `events_begin`: whether the pattern matched,
    and where `events_it` is left. -/
def «match» (actions : List PatternAction) (events : List TimestampEvents) (events_begin : Nat) :
    Except MatchError (Bool × Nat) := do
  let s ← matchLoop actions events sequence_match_max_iterations ⟨0, events_begin, events_begin, []⟩
  let action_it ← if s.action_it ≠ actions.length then skipEmpty (actions.drop s.action_it) s.action_it
    else pure s.action_it
  pure (action_it == actions.length, if s.events_it = events_begin then s.events_it + 1 else s.events_it)

/-- The trailing loop stops inside the actions when the last one does not match the empty
    sequence. -/
theorem skipEmpty_ok : ∀ (as : List PatternAction) (i : Nat),
    (∃ a, as.getLast? = some a ∧ matchesEmpty a = false) → ∃ j, skipEmpty as i = .ok j ∧ j < i + as.length
  | [], _, ⟨_, hlast, _⟩ => by simp at hlast
  | a :: rest, i, ⟨z, hlast, hz⟩ => by
    rw [skipEmpty]
    split
    · rename_i ha
      -- `a` matches the empty sequence, so it is not the last action
      have hrest : rest ≠ [] := by
        rintro rfl
        simp only [List.getLast?_singleton, Option.some.injEq] at hlast
        rw [hlast, hz] at ha
        cases ha
      obtain ⟨j, hj, hlt⟩ := skipEmpty_ok rest (i + 1) ⟨z, by rwa [List.getLast?_cons_of_ne_nil hrest] at hlast, hz⟩
      exact ⟨j, hj, by simp only [List.length_cons]; omega⟩
    · exact ⟨i, rfl, by simp⟩

theorem getLast?_drop_of_lt {actions : List PatternAction} {i : Nat} (h : i < actions.length) :
    (actions.drop i).getLast? = actions.getLast? := by
  rw [List.getLast?_eq_getElem?, List.getLast?_eq_getElem?, List.getElem?_drop, List.length_drop]
  congr 1
  omega

/-- For a pattern whose last action does not match the empty sequence, `match` reads actions
    and events only in range: it returns, or throws TOO_SLOW, or `test` throws. -/
theorem match_reads_in_range (actions : List PatternAction) (events : List TimestampEvents) {events_begin : Nat}
    (hbegin : events_begin ≤ events.length) (hlast : ∃ a, actions.getLast? = some a ∧ matchesEmpty a = false) :
    (∃ r, «match» actions events events_begin = .ok r) ∨ «match» actions events events_begin = .error .tooSlow ∨
      «match» actions events events_begin = .error .bitsetOutOfRange := by
  have hinit : LoopInv actions.length events.length ⟨0, events_begin, events_begin, []⟩ :=
    ⟨Nat.zero_le _, hbegin, .inr rfl, by simp⟩
  rcases matchLoop_inv actions events sequence_match_max_iterations _ hinit with ⟨s, hs, hinv⟩ | h | h
  · left
    simp only [«match», hs, bind, Except.bind]
    split
    · rename_i hne
      have hlt := Nat.lt_of_le_of_ne hinv.action_le hne
      obtain ⟨j, hj, -⟩ := skipEmpty_ok (actions.drop s.action_it) s.action_it
        (by rwa [getLast?_drop_of_lt hlt])
      simp [hj, pure, Except.pure]
    · simp [pure, Except.pure]
  · simp [«match», h, bind, Except.bind]
  · simp [«match», h, bind, Except.bind]

/-- `(?1)` over one row with event 1. -/
theorem match_reads_in_range_one_event : 0 ≤ [(⟨0, 1⟩ : TimestampEvents)].length ∧
    (∃ a, [(⟨.KleeneStar, 0⟩ : PatternAction), ⟨.SpecificEvent, 0⟩].getLast? = some a ∧ matchesEmpty a = false) ∧
    ((∃ r, «match» [⟨.KleeneStar, 0⟩, ⟨.SpecificEvent, 0⟩] [⟨0, 1⟩] 0 = .ok r) ∨
      «match» [⟨.KleeneStar, 0⟩, ⟨.SpecificEvent, 0⟩] [⟨0, 1⟩] 0 = .error .tooSlow ∨
      «match» [⟨.KleeneStar, 0⟩, ⟨.SpecificEvent, 0⟩] [⟨0, 1⟩] 0 = .error .bitsetOutOfRange) := by
  have hlast : ∃ a, [(⟨.KleeneStar, 0⟩ : PatternAction), ⟨.SpecificEvent, 0⟩].getLast? = some a ∧
      matchesEmpty a = false := ⟨⟨.SpecificEvent, 0⟩, rfl, rfl⟩
  exact ⟨Nat.zero_le _, hlast, match_reads_in_range _ _ (Nat.zero_le _) hlast⟩

/-- With two event arguments, `(?0)` is accepted and stored as event `0xFFFFFFFF`, which makes
    `std::bitset::test` throw on the first event; and `(?1).*`, once its event is consumed, makes
    the trailing loop skip the final `.*` and read the action past the end. -/
theorem sequence_match_reads_out_of_range :
    create 3 "(?0)".toList = .ok [⟨.KleeneStar, 0⟩, ⟨.SpecificEvent, 4294967295⟩] ∧
      «match» [⟨.KleeneStar, 0⟩, ⟨.SpecificEvent, 4294967295⟩] [⟨0, 1⟩] 0 = .error .bitsetOutOfRange ∧
      create 3 "(?1).*".toList = .ok [⟨.KleeneStar, 0⟩, ⟨.SpecificEvent, 0⟩, ⟨.KleeneStar, 0⟩] ∧
      «match» [⟨.KleeneStar, 0⟩, ⟨.SpecificEvent, 0⟩, ⟨.KleeneStar, 0⟩] [⟨0, 1⟩] 0 = .error (.actionOutOfRange 3) :=
  ⟨by decide +kernel, by decide, by decide +kernel, by decide⟩

end ClickHouseGpu.AggregateFunctions.SequenceMatch
