import PgSnowflakeCdc.PgOutput.Parser

/-!
# Which exceptions escape `parse`

Every read of the parser fails with one of the exceptions that `parse` catches.  The datetime
arithmetic of `_handle_begin` does not: a Begin message whose commit timestamp no `datetime` can
hold raises `OverflowError`.

* `parse_error_iff` — **an exception escapes exactly for such a Begin message.**
-/

namespace PgSnowflakeCdc

open OrderedDict BigEndian PgOutputParser

/-- Every exception of the computation is one that `parse` catches. -/
def Caught {α : Type} (r : Except PyExc α) : Prop := ∀ e, r = .error e → e.isCaught = true

theorem caught_ok {α : Type} (a : α) : Caught (.ok a) := by
  intro e he
  cases he

theorem caught_error {α : Type} {e : PyExc} (h : e.isCaught = true) :
    Caught (.error e : Except PyExc α) := by
  intro e' he'
  cases he'
  exact h

/-- Computations in sequence. -/
theorem Caught.bind {α β : Type} {r : Except PyExc α} {f : α → Except PyExc β} (hr : Caught r)
    (hf : ∀ a, Caught (f a)) : Caught (r >>= f) := by
  cases r with
  | ok a => exact hf a
  | error e => exact caught_error (hr e rfl)

theorem Caught.ite {α : Type} {p : Prop} [Decidable p] {r r' : Except PyExc α} (h : Caught r)
    (h' : Caught r') : Caught (if p then r else r') := by
  split
  · exact h
  · exact h'

/-! ### Reads -/

theorem caught_unpack (n : ℕ) (data : Bytes) (offset : ℕ) : Caught (unpack n data offset) :=
  Caught.ite (caught_ok _) (caught_error rfl)

theorem caught_byteAt (data : Bytes) (offset : ℕ) : Caught (byteAt data offset) := by
  rw [byteAt]
  split
  · exact caught_ok _
  · exact caught_error rfl

theorem caught_readCString (data : Bytes) (offset : ℕ) : Caught (readCString data offset) := by
  rw [readCString]
  split
  · exact caught_error rfl
  · split
    · exact caught_error rfl
    · exact caught_ok _

theorem caught_readColumns (data : Bytes) (relation : RelationInfo) :
    ∀ (count i offset : ℕ) (row : Row), Caught (readColumns data relation count i offset row)
  | 0, _, _, _ => caught_ok _
  | count + 1, i, _, _ => by
    rw [readColumns]
    refine (caught_byteAt _ _).bind fun b => ?_
    refine Caught.ite (caught_readColumns data relation count (i + 1) _ _) ?_
    refine Caught.ite (caught_readColumns data relation count (i + 1) _ _) ?_
    refine Caught.ite ((caught_unpack _ _ _).bind fun colLen => ?_) ?_
    · exact caught_readColumns data relation count (i + 1) _ _
    · exact caught_readColumns data relation count (i + 1) _ _

theorem caught_readTuple (data : Bytes) (offset : ℕ) (relation : RelationInfo) :
    Caught (readTuple data offset relation) :=
  (caught_unpack _ _ _).bind fun _ => caught_readColumns _ _ _ _ _ _

theorem caught_readRelationColumns (data : Bytes) :
    ∀ numCols offset : ℕ, Caught (readRelationColumns data numCols offset)
  | 0, _ => caught_ok _
  | numCols + 1, _ =>
    (caught_byteAt _ _).bind fun _ => (caught_readCString _ _).bind fun _ =>
      (caught_unpack _ _ _).bind fun _ => (caught_readRelationColumns data numCols _).bind fun _ =>
        caught_ok _

/-! ### Handlers -/

theorem caught_handleRelation (parser : PgOutputParser) (data : Bytes) :
    Caught (parser.handleRelation data) :=
  (caught_unpack _ _ _).bind fun _ => (caught_readCString _ _).bind fun _ =>
    (caught_readCString _ _).bind fun _ => (caught_unpack _ _ _).bind fun _ =>
      (caught_readRelationColumns _ _ _).bind fun _ => caught_ok _

theorem caught_handleInsert (parser : PgOutputParser) (data : Bytes) (lsn : ℕ) :
    Caught (parser.handleInsert data lsn) := by
  rw [handleInsert]
  refine (caught_unpack _ _ _).bind fun oid => ?_
  split
  · exact caught_ok _
  · refine (caught_byteAt _ _).bind fun marker => Caught.ite (caught_ok _) ?_
    exact (caught_readTuple _ _ _).bind fun _ => caught_ok _

theorem caught_handleUpdate (parser : PgOutputParser) (data : Bytes) (lsn : ℕ) :
    Caught (parser.handleUpdate data lsn) := by
  rw [handleUpdate]
  refine (caught_unpack _ _ _).bind fun oid => ?_
  split
  · exact caught_ok _
  · refine (caught_byteAt _ _).bind fun kind => Caught.ite ?_ (Caught.ite ?_ (caught_ok _))
    · refine (caught_readTuple _ _ _).bind fun _ => (caught_byteAt _ _).bind fun marker => ?_
      exact Caught.ite ((caught_readTuple _ _ _).bind fun _ => caught_ok _) (caught_ok _)
    · exact (caught_readTuple _ _ _).bind fun _ => caught_ok _

theorem caught_handleDelete (parser : PgOutputParser) (data : Bytes) (lsn : ℕ) :
    Caught (parser.handleDelete data lsn) := by
  rw [handleDelete]
  refine (caught_unpack _ _ _).bind fun oid => ?_
  split
  · exact caught_ok _
  · refine (caught_byteAt _ _).bind fun kind => Caught.ite ?_ (caught_ok _)
    exact (caught_readTuple _ _ _).bind fun _ => caught_ok _

/-- A handler whose exceptions are caught lets none escape. -/
theorem catching_ne_error {r : Except PyExc (Option ChangeEvent)} (h : Caught r) (e : PyExc) :
    catching r ≠ .error e := by
  intro he
  cases r with
  | ok event => cases he
  | error e' =>
    rw [catching, if_pos (h e' rfl)] at he
    cases he

/-! ### The entry point -/

/-- A Begin message whose commit timestamp lies outside the years 1 to 9999. -/
def BeginOutOfRange : Bytes → Prop
  | [] => False
  | tag :: body => chr tag = 'B' ∧ 16 ≤ body.length ∧
    ¬ InDatetimeRange (twosComplement 64 (beNat ((body.drop 8).take 8)))

instance : DecidablePred BeginOutOfRange
  | [] => isFalse not_false
  | _ :: _ => inferInstanceAs (Decidable (_ ∧ _))

theorem handleBegin_error_iff (P : Platform) (parser : PgOutputParser) (body : Bytes) (e : PyExc) :
    catching ((parser.handleBegin P body).2.map fun _ => none) = .error e ↔
      e = .overflowError ∧ 16 ≤ body.length ∧
        ¬ InDatetimeRange (twosComplement 64 (beNat ((body.drop 8).take 8))) := by
  rw [handleBegin, unpack, unpack]
  by_cases hlsn : 0 + 8 ≤ body.length
  · by_cases hts : 8 + 8 ≤ body.length
    · rw [if_pos hlsn, if_pos hts]
      dsimp only
      by_cases hrange : InDatetimeRange (twosComplement 64 (beNat ((body.drop 8).take 8)))
      · rw [if_pos hrange]
        simp [catching, Except.map, hrange]
      · rw [if_neg hrange]
        simp [catching, Except.map, hrange, hts, PyExc.isCaught, eq_comm]
    · rw [if_pos hlsn, if_neg hts]
      simp [catching, Except.map, PyExc.isCaught, show ¬ 16 ≤ body.length from hts]
  · rw [if_neg hlsn]
    simp [catching, Except.map, PyExc.isCaught, show ¬ 16 ≤ body.length by omega]

/-- **An exception escapes `parse` exactly for a Begin message with an impossible timestamp.** -/
theorem parse_error_iff (P : Platform) (parser : PgOutputParser) (data : Bytes) (lsn : ℕ) (e : PyExc) :
    (parser.parse P data lsn).2 = .error e ↔ e = .overflowError ∧ BeginOutOfRange data := by
  cases data with
  | nil => simp [parse, BeginOutOfRange]
  | cons tag body =>
    rw [parse, BeginOutOfRange]
    dsimp only
    by_cases hbegin : chr tag = 'B'
    · rw [if_pos hbegin, handleBegin_error_iff]
      simp [hbegin]
    · rw [if_neg hbegin]
      have hnone : ∀ r : PgOutputParser × Except PyExc (Option ChangeEvent), r.2 ≠ .error e →
          (r.2 = .error e ↔ e = .overflowError ∧ chr tag = 'B' ∧ 16 ≤ body.length ∧
            ¬ InDatetimeRange (twosComplement 64 (beNat ((body.drop 8).take 8)))) :=
        fun r hr => iff_of_false hr fun h => hbegin h.2.1
      apply hnone
      split
      · cases hrel : parser.handleRelation body with
        | ok parser' => simp
        | error e' =>
          exact catching_ne_error (caught_error (caught_handleRelation parser body e' hrel)) e
      · split
        · exact catching_ne_error (caught_handleInsert parser body lsn) e
        · split
          · exact catching_ne_error (caught_handleUpdate parser body lsn) e
          · split
            · exact catching_ne_error (caught_handleDelete parser body lsn) e
            · simp

end PgSnowflakeCdc
