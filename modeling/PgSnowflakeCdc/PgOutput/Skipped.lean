import PgSnowflakeCdc.PgOutput.Exceptions
import PgSnowflakeCdc.PgOutput.Wire

/-!
# Messages that `parse` skips

A read that fails inside the `try` of `parse` skips the message: no event is produced, and the stream
goes on with the next message.

* `parse_eq_dispatch` — `parse` is its `try` body with the exceptions of the `except` clause caught;
* `parse_returns_iff` — **`parse` returns exactly unless the commit timestamp of a Begin is
  impossible**;
* `skipped_keeps_parser_iff` — **a skipped message leaves the parser as it was exactly unless it is a
  Begin that has already announced another commit LSN.**
-/

namespace PgSnowflakeCdc

open OrderedDict BigEndian PgOutputParser

/-! ### The `try` body -/

namespace PgOutputParser

/-- The body of the `try` of `parse`: the parser afterwards, and the value returned or the exception
raised. -/
def dispatch (P : Platform) (parser : PgOutputParser) (data : Bytes) (lsn : ℕ) :
    PgOutputParser × Except PyExc (Option ChangeEvent) :=
  match data with
  | [] => (parser, .ok none)
  | tag :: body =>
    let msgType := chr tag
    if msgType = 'B' then
      let (parser', r) := parser.handleBegin P body
      (parser', r.map fun _ => none)
    else if msgType = 'R' then
      match parser.handleRelation body with
      | .ok parser' => (parser', .ok none)
      | .error e => (parser, .error e)
    else if msgType = 'I' then (parser, parser.handleInsert body lsn)
    else if msgType = 'U' then (parser, parser.handleUpdate body lsn)
    else if msgType = 'D' then (parser, parser.handleDelete body lsn)
    else (parser, .ok none)

/-- **`parse` is its `try` body under the `except` clause.** -/
theorem parse_eq_dispatch (P : Platform) (parser : PgOutputParser) (data : Bytes) (lsn : ℕ) :
    parser.parse P data lsn =
      ((parser.dispatch P data lsn).1, catching (parser.dispatch P data lsn).2) := by
  cases data with
  | nil => rfl
  | cons tag body =>
    rw [parse, dispatch]
    dsimp only
    split
    · rfl
    · split
      · cases parser.handleRelation body <;> rfl
      · split
        · rfl
        · split
          · rfl
          · split <;> rfl

end PgOutputParser

theorem catching_error {e : PyExc} :
    catching (.error e) = if e.isCaught then .ok none else .error e := rfl

/-! ### No payload is poison -/

/-- An exception of the `try` body that `parse` does not catch is the one that escapes. -/
theorem dispatch_error_of_not_caught {P : Platform} {parser : PgOutputParser} {data : Bytes} {lsn : ℕ}
    {e : PyExc} (h : (parser.dispatch P data lsn).2 = .error e) (he : e.isCaught ≠ true) :
    (parser.parse P data lsn).2 = .error e := by
  rw [parse_eq_dispatch, h]
  exact if_neg he

/-- **`parse` returns, and every exception raised on the way is of a kind it catches, exactly unless
the payload is a Begin message whose commit timestamp no `datetime` can hold.** -/
theorem parse_returns_iff (P : Platform) (parser : PgOutputParser) (data : Bytes) (lsn : ℕ) :
    ((∃ event, (parser.parse P data lsn).2 = .ok event) ∧
        ∀ e, (parser.dispatch P data lsn).2 = .error e → e.isCaught = true) ↔
      ¬ BeginOutOfRange data := by
  constructor
  · rintro ⟨⟨event, hevent⟩, -⟩ hbegin
    have herror := (parse_error_iff P parser data lsn .overflowError).mpr ⟨rfl, hbegin⟩
    rw [hevent] at herror
    cases herror
  · intro hbegin
    have hescape : ∀ e, (parser.parse P data lsn).2 ≠ .error e :=
      fun e he => hbegin ((parse_error_iff P parser data lsn e).mp he).2
    constructor
    · cases hresult : (parser.parse P data lsn).2 with
      | ok event => exact ⟨event, rfl⟩
      | error e => exact absurd hresult (hescape e)
    · intro e he
      by_contra hcaught
      exact hescape e (dispatch_error_of_not_caught he hcaught)

/-- A Begin message with the largest commit timestamp its field can hold. -/
def farFutureBegin : Bytes :=
  ascii 'B' :: (beBytes 8 12 ++ beBytes 8 (2 ^ 63 - 1) ++ beBytes 4 42)

/-- **A timestamp beyond the year 9999 escapes.** -/
theorem farFutureBegin_escapes :
    (PgOutputParser.new.parse .ascii farFutureBegin 10).2 = .error .overflowError ∧
      (PgOutputParser.new.dispatch .ascii farFutureBegin 10).2 = .error .overflowError ∧
      PyExc.overflowError.isCaught = false := by
  decide +kernel

/-! ### What a skipped message leaves behind -/

/-- A Begin message long enough to hold a commit LSN, and one that is not the current one. -/
def AnnouncesCommitLsn (parser : PgOutputParser) : Bytes → Prop
  | [] => False
  | tag :: body => chr tag = 'B' ∧ 8 ≤ body.length ∧ beNat (body.take 8) ≠ parser.currentCommitLsn

instance (parser : PgOutputParser) : DecidablePred (AnnouncesCommitLsn parser)
  | [] => isFalse not_false
  | _ :: _ => inferInstanceAs (Decidable (_ ∧ _))

/-- `_handle_begin` assigns the commit LSN before the reads that can still fail. -/
theorem handleBegin_of_error {P : Platform} {parser : PgOutputParser} {body : Bytes} {e : PyExc}
    (h : (parser.handleBegin P body).2 = .error e) :
    (parser.handleBegin P body).1 =
      if 8 ≤ body.length then { parser with currentCommitLsn := beNat (body.take 8) } else parser := by
  rw [handleBegin] at h ⊢
  by_cases hlsn : 8 ≤ body.length
  · have hread : unpack 8 body 0 = .ok (beNat (body.take 8)) := if_pos (by omega)
    rw [hread] at h ⊢
    rw [if_pos hlsn]
    dsimp only at h ⊢
    cases hts : unpack 8 body 8 with
    | error e' => rfl
    | ok word =>
      rw [hts] at h
      dsimp only at h ⊢
      by_cases hrange : InDatetimeRange (twosComplement 64 word)
      · rw [if_pos hrange] at h
        cases h
      · rw [if_neg hrange]
  · have hread : unpack 8 body 0 = .error .structError := if_neg (by omega)
    rw [hread, if_neg hlsn]

/-- The handlers other than `_handle_begin` leave the parser alone when they fail. -/
theorem dispatch_of_error {P : Platform} {parser : PgOutputParser} {data : Bytes} {lsn : ℕ} {e : PyExc}
    (h : (parser.dispatch P data lsn).2 = .error e) :
    (parser.dispatch P data lsn).1 = parser ↔ ¬ AnnouncesCommitLsn parser data := by
  cases data with
  | nil => exact iff_of_true rfl not_false
  | cons tag body =>
    rw [dispatch] at h ⊢
    rw [AnnouncesCommitLsn]
    dsimp only at h ⊢
    by_cases hbegin : chr tag = 'B'
    · rw [if_pos hbegin] at h ⊢
      dsimp only at h ⊢
      have hfail : ∃ e, (parser.handleBegin P body).2 = .error e := by
        cases hr : (parser.handleBegin P body).2 with
        | error e' => exact ⟨e', rfl⟩
        | ok u =>
          rw [hr] at h
          cases h
      obtain ⟨e', he'⟩ := hfail
      rw [handleBegin_of_error he']
      by_cases hlen : 8 ≤ body.length
      · rw [if_pos hlen]
        simp only [hbegin, hlen, true_and, not_not]
        constructor
        · exact fun heq => congrArg currentCommitLsn heq
        · rintro heq
          rw [heq]
      · rw [if_neg hlen]
        simp [hlen]
    · have hsame : ∀ q : PgOutputParser, q = parser →
          (q = parser ↔ ¬ (chr tag = 'B' ∧ 8 ≤ body.length ∧
            beNat (body.take 8) ≠ parser.currentCommitLsn)) :=
        fun q hq => iff_of_true hq fun hann => hbegin hann.1
      rw [if_neg hbegin] at h ⊢
      apply hsame
      by_cases hrelation : chr tag = 'R'
      · rw [if_pos hrelation] at h ⊢
        cases hr : parser.handleRelation body with
        | error e' => rfl
        | ok parser' =>
          rw [hr] at h
          cases h
      · rw [if_neg hrelation]
        split
        · rfl
        · split
          · rfl
          · split <;> rfl

/-- The event of a payload is the one its `try` body returns, if it returns. -/
theorem returnedEvent_parse_of_error {P : Platform} {parser : PgOutputParser} {data : Bytes} {lsn : ℕ}
    {e : PyExc} (h : (parser.dispatch P data lsn).2 = .error e) :
    returnedEvent (parser.parse P data lsn).2 = none := by
  rw [parse_eq_dispatch, h, catching_error]
  cases e.isCaught <;> rfl

/-- **A skipped message leaves the parser as it was, and with it every event of the other messages
of a stream, exactly unless it is a Begin message that has already announced another commit LSN.** -/
theorem skipped_keeps_parser_iff (P : Platform) (parser : PgOutputParser) (data : Bytes) (lsn : ℕ)
    {e : PyExc} (hskipped : (parser.dispatch P data lsn).2 = .error e) :
    ((parser.parse P data lsn).1 = parser ∧
        ∀ (parser₀ : PgOutputParser) (before after : List (ℕ × Bytes)),
          parserAfter P parser₀ before = parser →
          decodedEvents P parser₀ (before ++ (lsn, data) :: after) =
            decodedEvents P parser₀ (before ++ after)) ↔
      ¬ AnnouncesCommitLsn parser data := by
  rw [← dispatch_of_error hskipped, parse_eq_dispatch]
  constructor
  · exact fun h => h.1
  · intro hsame
    refine ⟨hsame, ?_⟩
    rintro parser₀ before after rfl
    have hnone := returnedEvent_parse_of_error hskipped
    have hparser : ((parserAfter P parser₀ before).parse P data lsn).1 =
        parserAfter P parser₀ before := by
      rw [parse_eq_dispatch]
      exact hsame
    rw [decodedEvents_append, decodedEvents_append]
    congr 1
    rw [decodedEvents, feed, List.filterMap_cons, hnone, hparser, decodedEvents]

/-- A Begin message cut short behind its commit LSN. -/
def cutBegin : Bytes := ascii 'B' :: beBytes 8 99

/-- A Begin message cut short inside its commit LSN is skipped without a trace. -/
theorem skipped_keeps_parser_cut :
    (PgOutputParser.new.parse .ascii (cutBegin.take 8) 10).1 = .new ∧
      ∀ (parser₀ : PgOutputParser) (before after : List (ℕ × Bytes)),
        parserAfter .ascii parser₀ before = .new →
        decodedEvents .ascii parser₀ (before ++ (10, cutBegin.take 8) :: after) =
          decodedEvents .ascii parser₀ (before ++ after) :=
  (skipped_keeps_parser_iff .ascii .new (cutBegin.take 8) 10 (e := .structError)
    (by decide +kernel)).mpr (by decide +kernel)

/-- A Relation message and an insert into it. -/
def announcedInsert : List (ℕ × Bytes) :=
  [(1, (Message.relation 7 "public" "customer_devices" 1 [⟨1, "id", 20, 0⟩]).encode),
    (2, (Message.insert 7 [.text "1"]).encode)]

/-- **Cut short behind its commit LSN, a Begin message is skipped, and its commit LSN is attached to
the events that follow.** -/
theorem cutBegin_leaves_commit_lsn :
    (PgOutputParser.new.dispatch .ascii cutBegin 10).2 = .error .structError ∧
      (PgOutputParser.new.parse .ascii cutBegin 10).2 = .ok none ∧
      (PgOutputParser.new.parse .ascii cutBegin 10).1.currentCommitLsn ≠
        PgOutputParser.new.currentCommitLsn ∧
      (decodedEvents .ascii .new announcedInsert).map ChangeEvent.commitLsn = [0] ∧
      (decodedEvents .ascii .new ((10, cutBegin) :: announcedInsert)).map ChangeEvent.commitLsn =
        [99] := by
  decide +kernel

end PgSnowflakeCdc
