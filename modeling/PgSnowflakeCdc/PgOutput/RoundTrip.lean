import PgSnowflakeCdc.PgOutput.Wire

/-!
# Decoding undoes encoding

**Proved**: feeding the encodings of a well-formed stream to one parser yields exactly the
reference events of the stream (`feed_encode`).

The proof has two layers.  A *field lemma* for every read says what it returns when an encoded
field sits at the current offset; each message layout is then a walk over its fields.  The parser
state is related to the stream read so far by `Tracks`: the relation map holds the latest
announcement of every OID, and the two session fields hold the latest Begin.
-/

namespace PgSnowflakeCdc

open OrderedDict BigEndian

/-! ### Field lemmas -/

section Fields

variable {data tail : Bytes} {off : ℕ}

theorem utf8Decode_encode (s : String) : utf8Decode (utf8Encode s) = some s := by
  unfold utf8Decode utf8Encode String.fromUTF8?
  simp [String.fromUTF8, s.isValidUTF8]

theorem utf8DecodeReplace_encode (s : String) : utf8DecodeReplace (utf8Encode s) = s := by
  rw [utf8DecodeReplace, utf8Decode_encode]

theorem unpack_at {n v : ℕ} (h : data.drop off = beBytes n v ++ tail) (hv : v < 256 ^ n)
    (hn : 0 < n) : unpack n data off = .ok v := by
  have hne : beBytes n v ≠ [] := by
    rw [← List.length_pos_iff, beBytes_length]
    exact hn
  have hroom := room_for_field h hne
  have htake := take_field h
  rw [beBytes_length] at hroom htake
  rw [unpack, if_pos hroom, htake, beNat_beBytes n v hv]

/-- What follows a word. -/
theorem drop_past_word {n v : ℕ} (h : data.drop off = beBytes n v ++ tail) :
    data.drop (off + n) = tail := by
  have hpast := drop_past_field h
  rwa [beBytes_length] at hpast

theorem byteAt_at {b : UInt8} (h : data.drop off = b :: tail) : byteAt data off = .ok b := by
  rw [byteAt, getElem?_at h]

/-- A terminator that does not occur in the string ends it. -/
theorem idxOf?_terminator {l : Bytes} (h : (0 : UInt8) ∉ l) :
    (l ++ 0 :: tail).idxOf? 0 = some l.length := by
  induction l with
  | nil => simp [List.idxOf?_cons]
  | cons b l ih =>
    simp only [List.mem_cons, not_or] at h
    rw [List.cons_append, List.idxOf?_cons, if_neg (by simpa using Ne.symm h.1), ih h.2]
    rfl

theorem readCString_at {s : String} (h : data.drop off = cString s ++ tail) (hs : NulFree s) :
    readCString data off = .ok (s, off + (cString s).length) := by
  have hdrop : data.drop off = utf8Encode s ++ 0 :: tail := by
    rw [h, cString, List.append_assoc, List.singleton_append]
  rw [readCString, hdrop, idxOf?_terminator hs]
  simp only [List.take_left, utf8Decode_encode, cString, List.length_append,
    List.length_singleton, Nat.add_assoc]

end Fields

/-! ### Tuples -/

/-- What the parser keeps of an announced column. -/
def WireColumn.info (c : WireColumn) : ColumnInfo := ⟨c.name, c.typeOid.toNat, c.flags &&& 1 = 1⟩

/-- What the parser keeps of an announcement. -/
def Announcement.info (oid : UInt32) (a : Announcement) : RelationInfo :=
  ⟨oid.toNat, a.namespace_, a.table, a.columns.map WireColumn.info⟩

section Tuples

variable {data tail : Bytes} {off : ℕ}

theorem sized_length (bs : Bytes) : (sized bs).length = 4 + bs.length := by
  rw [sized, List.length_append, beBytes_length]

/-- A tag byte followed by a length-prefixed value. -/
theorem sized_at {b : UInt8} {v : Bytes} (h : data.drop off = b :: sized v ++ tail)
    (hsize : v.length < 2 ^ 32) :
    byteAt data off = .ok b ∧ unpack 4 data (off + 1) = .ok v.length ∧
      (data.drop (off + 1 + 4)).take v.length = v := by
  rw [List.cons_append, sized, List.append_assoc] at h
  have hword := drop_past_byte h
  exact ⟨byteAt_at h, unpack_at hword hsize (by decide), take_field (drop_past_word hword)⟩

/-- One turn of the column loop over an encoded entry. -/
theorem readColumns_datum {d : Datum} (h : data.drop off = d.encode ++ tail) (hd : d.WellFormed)
    (relation : RelationInfo) (count i : ℕ) (row : Row) :
    readColumns data relation (count + 1) i off row =
      readColumns data relation count (i + 1) (off + d.encode.length)
        (row.set (columnName relation i) d.value) := by
  cases d with
  | null =>
    have hbyte := byteAt_at (b := ascii 'n') h
    rw [readColumns, hbyte]
    rfl
  | unchanged =>
    have hbyte := byteAt_at (b := ascii 'u') h
    rw [readColumns, hbyte]
    rfl
  | text s =>
    obtain ⟨hbyte, hword, hraw⟩ := sized_at (b := ascii 't') (v := utf8Encode s) h hd
    rw [readColumns, hbyte]
    show (unpack 4 data (off + 1) >>= _) = _
    rw [hword]
    show readColumns data relation count (i + 1) (off + 1 + 4 + (utf8Encode s).length)
      (row.set (columnName relation i)
        (.str (utf8DecodeReplace ((data.drop (off + 1 + 4)).take (utf8Encode s).length)))) = _
    rw [hraw, utf8DecodeReplace_encode, Datum.value, Datum.encode, List.length_cons, sized_length]
    congr 1
    omega
  | binary bs =>
    obtain ⟨hbyte, hword, hraw⟩ := sized_at (b := ascii 'b') (v := bs) h hd
    rw [readColumns, hbyte]
    show (unpack 4 data (off + 1) >>= _) = _
    rw [hword]
    show readColumns data relation count (i + 1) (off + 1 + 4 + bs.length)
      (row.set (columnName relation i) (.bytes ((data.drop (off + 1 + 4)).take bs.length))) = _
    rw [hraw, Datum.value, Datum.encode, List.length_cons, sized_length]
    congr 1
    omega

/-- The entries of a tuple under the names the loop files them under. -/
def labelled (relation : RelationInfo) (i : ℕ) : List Datum → List (String × PyVal)
  | [] => []
  | d :: ds => (columnName relation i, d.value) :: labelled relation (i + 1) ds

/-- The whole column loop: the induction is on the entries left. -/
theorem readColumns_data (relation : RelationInfo) (ds : List Datum)
    (hd : ∀ d ∈ ds, d.WellFormed) : ∀ (i off : ℕ) (row : Row),
      data.drop off = ds.flatMap Datum.encode ++ tail →
      readColumns data relation ds.length i off row =
        .ok ((labelled relation i ds).foldl (fun row p => row.set p.1 p.2) row,
          off + (ds.flatMap Datum.encode).length) := by
  induction ds with
  | nil => intro i off row _; rfl
  | cons d ds ih =>
    intro i off row h
    rw [List.flatMap_cons, List.append_assoc] at h
    rw [List.length_cons, readColumns_datum h (hd d List.mem_cons_self),
      ih (fun d' hd' => hd d' (List.mem_cons_of_mem d hd')) _ _ _ (drop_past_field h),
      List.flatMap_cons, List.length_append, Nat.add_assoc]
    rfl

/-- With one entry per column, every entry is filed under its own column's name. -/
theorem labelled_eq_zip (relation : RelationInfo) : ∀ (ds : List Datum) (i : ℕ),
    i + ds.length = relation.columns.length →
    labelled relation i ds =
      ((relation.columns.drop i).map ColumnInfo.name).zip (ds.map Datum.value) := by
  intro ds
  induction ds with
  | nil => intro i _; simp [labelled]
  | cons d ds ih =>
    intro i hlen
    rw [List.length_cons] at hlen
    have hi : i < relation.columns.length := by omega
    rw [labelled, ih (i + 1) (by omega), List.drop_eq_getElem_cons hi, List.map_cons, List.map_cons,
      List.zip_cons_cons, columnName, List.getElem?_eq_getElem hi]

/-- **A tuple reads back as the row it denotes.** -/
theorem readTuple_at {a : Announcement} {oid : UInt32} {ds : List Datum}
    (h : data.drop off = encodeTuple ds ++ tail) (hsize : ds.length < 2 ^ 16)
    (hd : ∀ d ∈ ds, d.WellFormed) (hwidth : ds.length = a.columns.length)
    (hdistinct : (a.columns.map WireColumn.name).Nodup) :
    readTuple data off (a.info oid) =
      .ok (tupleRow a.columns ds, off + (encodeTuple ds).length) := by
  rw [encodeTuple, List.append_assoc] at h
  have hcount : unpack 2 data off = .ok ds.length := unpack_at h hsize (by decide)
  have hnames : ((a.info oid).columns.drop 0).map ColumnInfo.name = a.columns.map WireColumn.name := by
    simp [Announcement.info, WireColumn.info, Function.comp_def]
  have hlabels : labelled (a.info oid) 0 ds =
      (a.columns.map WireColumn.name).zip (ds.map Datum.value) := by
    rw [labelled_eq_zip _ ds 0 (by simp [Announcement.info, hwidth]), hnames]
  rw [readTuple, hcount]
  show readColumns data (a.info oid) ds.length 0 (off + 2) ∅ = _
  rw [readColumns_data (a.info oid) ds hd 0 (off + 2) ∅ (drop_past_word h), hlabels, encodeTuple,
    List.length_append, beBytes_length, Nat.add_assoc]
  congr 2
  apply Dict.ext
  rw [entries_tupleRow hdistinct hwidth]
  apply Dict.entries_ofPairs
  rw [List.map_fst_zip (by simp [hwidth])]
  exact hdistinct

end Tuples

/-! ### The parser tracks the stream -/

/-- The parser state after the messages `earlier`. -/
structure Tracks (P : Platform) (earlier : List Message) (parser : PgOutputParser) : Prop where
  relations : ∀ oid : UInt32,
    parser.relations.get? oid.toNat = (latestRelation earlier oid).map (Announcement.info oid)
  distinct : ∀ oid a, latestRelation earlier oid = some a → (a.columns.map WireColumn.name).Nodup
  commitLsn : parser.currentCommitLsn = commitLsnAt earlier
  tsMs : parser.currentTsMs = tsMsAt P earlier

theorem tracks_new (P : Platform) : Tracks P [] .new where
  relations _ := rfl
  distinct _ _ h := by simp [latestRelation] at h
  commitLsn := rfl
  tsMs := rfl

section Messages

open PgOutputParser

variable {P : Platform} {earlier : List Message} {parser : PgOutputParser}

/-- The OID field at the start of a body. -/
theorem unpack_oid {body tail : Bytes} {oid : UInt32} (h : body = beBytes 4 oid.toNat ++ tail) :
    unpack 4 body 0 = .ok oid.toNat := by
  have hdrop : body.drop 0 = beBytes 4 oid.toNat ++ tail := by rw [List.drop_zero, h]
  exact unpack_at hdrop (UInt32.toNat_lt oid) (by decide)

theorem drop_past_oid {body tail : Bytes} {oid : UInt32} (h : body = beBytes 4 oid.toNat ++ tail) :
    body.drop 4 = tail := by
  have hdrop : body.drop 0 = beBytes 4 oid.toNat ++ tail := by rw [List.drop_zero, h]
  simpa only [Nat.zero_add] using drop_past_word hdrop

/-- `_handle_begin` on an encoded Begin sets both session fields. -/
theorem handleBegin_encode (finalLsn : UInt64) {commitTs : ℤ} (xid : UInt32)
    (hts : InDatetimeRange commitTs) {body : Bytes}
    (h : body = beBytes 8 finalLsn.toNat ++ beBytes 8 (wrap 64 commitTs) ++ beBytes 4 xid.toNat) :
    parser.handleBegin P body =
      ({ parser with currentCommitLsn := finalLsn.toNat, currentTsMs := P.tsMs commitTs },
        .ok ()) := by
  have h0 : body.drop 0 = beBytes 8 finalLsn.toNat ++
      (beBytes 8 (wrap 64 commitTs) ++ beBytes 4 xid.toNat) := by
    rw [List.drop_zero, h, List.append_assoc]
  have hlsn : unpack 8 body 0 = .ok finalLsn.toNat :=
    unpack_at h0 (UInt64.toNat_lt finalLsn) (by decide)
  have hword : unpack 8 body 8 = .ok (wrap 64 commitTs) :=
    unpack_at (drop_past_word h0) (wrap_lt 64 commitTs) (by decide)
  have hsigned : twosComplement 64 (wrap 64 commitTs) = commitTs := by
    obtain ⟨hlo, hhi⟩ := hts
    exact twosComplement_wrap 63 commitTs (by omega) (by omega)
  simp only [handleBegin, hlsn, hword, hsigned, if_pos hts]

/-- The column loop of `_handle_relation` over encoded columns. -/
theorem readRelationColumns_encode {data : Bytes} (columns : List WireColumn)
    (hnul : ∀ c ∈ columns, NulFree c.name) : ∀ off : ℕ,
      data.drop off = columns.flatMap WireColumn.encode →
      readRelationColumns data columns.length off = .ok (columns.map WireColumn.info) := by
  induction columns with
  | nil => intro off _; rfl
  | cons c columns ih =>
    intro off h
    rw [List.flatMap_cons, WireColumn.encode, List.cons_append, List.append_assoc,
      List.append_assoc] at h
    have hflags := byteAt_at h
    have hname := readCString_at (drop_past_byte h) (hnul c List.mem_cons_self)
    have hword := drop_past_field (drop_past_byte h)
    have hoid := unpack_at hword (UInt32.toNat_lt c.typeOid) (by decide)
    have hrest := drop_past_word (drop_past_word hword)
    have hih := ih (fun c' hc' => hnul c' (List.mem_cons_of_mem c hc')) _ hrest
    simp only [List.length_cons, readRelationColumns, hflags, hname, hoid, hih, bind, Except.bind,
      pure, Except.pure, List.map_cons, WireColumn.info]

/-- `_handle_relation` on an encoded Relation files the announcement under its OID. -/
theorem handleRelation_encode (oid : UInt32) {namespace_ table : String} (replicaIdentity : UInt8)
    {columns : List WireColumn} (hns : NulFree namespace_) (htable : NulFree table)
    (hsize : columns.length < 2 ^ 16) (hnul : ∀ c ∈ columns, NulFree c.name) {body : Bytes}
    (h : body = beBytes 4 oid.toNat ++ cString namespace_ ++ cString table ++ [replicaIdentity]
      ++ beBytes 2 columns.length ++ columns.flatMap WireColumn.encode) :
    parser.handleRelation body = .ok
      { parser with
        relations := parser.relations.set oid.toNat
          (Announcement.info oid ⟨namespace_, table, columns⟩) } := by
  simp only [List.append_assoc] at h
  have hoid := unpack_oid h
  have hdrop := drop_past_oid h
  have hname := readCString_at hdrop hns
  have hdrop₁ := drop_past_field hdrop
  have htbl := readCString_at hdrop₁ htable
  have hdrop₂ := drop_past_byte (a := replicaIdentity) (drop_past_field hdrop₁)
  have hcount := unpack_at hdrop₂ hsize (by decide)
  have hcols := readRelationColumns_encode columns hnul _ (drop_past_word hdrop₂)
  simp only [handleRelation, hoid, hname, htbl, hcount, hcols, bind, Except.bind, pure,
    Except.pure, Announcement.info]

/-- The event the parser builds for an announced relation is the reference one. -/
theorem rowEvent_of_announced (ht : Tracks P earlier parser) {oid : UInt32} {a : Announcement}
    (ha : latestRelation earlier oid = some a) (op : Op) (before after : Announcement → Option Row)
    (lsn : ℕ) :
    rowEvent P earlier oid op before after lsn =
      some (parser.event op (a.info oid) (before a) (after a) lsn) := by
  rw [rowEvent, ha, Option.map_some, event, ht.tsMs, ht.commitLsn]
  rfl

/-- A tuple of a well-formed message reads back under its relation. -/
theorem readTuple_for (ht : Tracks P earlier parser) {oid : UInt32} {a : Announcement}
    (ha : latestRelation earlier oid = some a) {ds : List Datum} (hds : TupleFor earlier oid ds)
    {data t : Bytes} {off : ℕ} (h : data.drop off = encodeTuple ds ++ t) :
    readTuple data off (a.info oid) =
      .ok (tupleRow a.columns ds, off + (encodeTuple ds).length) :=
  readTuple_at h hds.size hds.data (hds.width a ha) (ht.distinct oid a ha)

/-- So does the last tuple of the message, behind its marker. -/
theorem readTuple_last (ht : Tracks P earlier parser) {oid : UInt32} {a : Announcement}
    (ha : latestRelation earlier oid = some a) {ds : List Datum} (hds : TupleFor earlier oid ds)
    {data : Bytes} {off : ℕ} {marker : UInt8} (h : data.drop off = marker :: encodeTuple ds) :
    readTuple data (off + 1) (a.info oid) =
      .ok (tupleRow a.columns ds, off + 1 + (encodeTuple ds).length) :=
  readTuple_for ht ha hds (t := []) (by rw [drop_past_byte h, List.append_nil])

theorem handleInsert_encode (ht : Tracks P earlier parser) {oid : UInt32} {new : List Datum}
    (hnew : TupleFor earlier oid new) (lsn : ℕ) {body : Bytes}
    (h : body = beBytes 4 oid.toNat ++ [ascii 'N'] ++ encodeTuple new) :
    parser.handleInsert body lsn = .ok (referenceEvent P earlier lsn (.insert oid new)) := by
  rw [List.append_assoc] at h
  have hoid := unpack_oid h
  have hrel := ht.relations oid
  cases ha : latestRelation earlier oid with
  | none =>
    rw [ha] at hrel
    simp only [handleInsert, hoid, hrel, referenceEvent, rowEvent, ha, bind, Except.bind, pure,
      Except.pure, Option.map_none]
  | some a =>
    rw [ha] at hrel
    have hdrop : body.drop 4 = ascii 'N' :: encodeTuple new := drop_past_oid h
    have hkind : byteAt body 4 = .ok (ascii 'N') := byteAt_at hdrop
    have htuple := readTuple_last ht ha hnew hdrop
    rw [referenceEvent, rowEvent_of_announced ht ha]
    simp only [handleInsert, hoid, hrel, hkind, htuple, bind, Except.bind, pure, Except.pure,
      Option.map_some, show chr (ascii 'N') = 'N' from rfl, ne_eq, not_true_eq_false, if_false]

theorem handleDelete_encode (ht : Tracks P earlier parser) {oid : UInt32} (kind : OldKind)
    {old : List Datum} (hold : TupleFor earlier oid old) (lsn : ℕ) {body : Bytes}
    (h : body = beBytes 4 oid.toNat ++ [ascii kind.tag] ++ encodeTuple old) :
    parser.handleDelete body lsn = .ok (referenceEvent P earlier lsn (.delete oid kind old)) := by
  rw [List.append_assoc] at h
  have hoid := unpack_oid h
  have hrel := ht.relations oid
  cases ha : latestRelation earlier oid with
  | none =>
    rw [ha] at hrel
    simp only [handleDelete, hoid, hrel, referenceEvent, rowEvent, ha, bind, Except.bind, pure,
      Except.pure, Option.map_none]
  | some a =>
    rw [ha] at hrel
    have hdrop : body.drop 4 = ascii kind.tag :: encodeTuple old := drop_past_oid h
    have hkind : byteAt body 4 = .ok (ascii kind.tag) := byteAt_at hdrop
    have htuple := readTuple_last ht ha hold hdrop
    rw [referenceEvent, rowEvent_of_announced ht ha]
    simp only [handleDelete, hoid, hrel, hkind, htuple, bind, Except.bind, pure, Except.pure,
      Option.map_some, if_pos kind.marksOld]

/-- An Update without an old tuple. -/
theorem handleUpdate_encode_new (ht : Tracks P earlier parser) {oid : UInt32} {new : List Datum}
    (hnew : TupleFor earlier oid new) (lsn : ℕ) {body : Bytes}
    (h : body = beBytes 4 oid.toNat ++ [ascii 'N'] ++ encodeTuple new) :
    parser.handleUpdate body lsn = .ok (referenceEvent P earlier lsn (.update oid none new)) := by
  rw [List.append_assoc] at h
  have hoid := unpack_oid h
  have hrel := ht.relations oid
  cases ha : latestRelation earlier oid with
  | none =>
    rw [ha] at hrel
    simp only [handleUpdate, hoid, hrel, referenceEvent, rowEvent, ha, bind, Except.bind, pure,
      Except.pure, Option.map_none]
  | some a =>
    rw [ha] at hrel
    have hdrop : body.drop 4 = ascii 'N' :: encodeTuple new := drop_past_oid h
    have hkind : byteAt body 4 = .ok (ascii 'N') := byteAt_at hdrop
    have htuple := readTuple_last ht ha hnew hdrop
    have hmarker : ¬ ('N' = 'K' ∨ 'N' = 'O') := by decide
    rw [referenceEvent, rowEvent_of_announced ht ha]
    simp only [handleUpdate, hoid, hrel, hkind, htuple, bind, Except.bind, pure, Except.pure,
      Option.map_some, show chr (ascii 'N') = 'N' from rfl, if_neg hmarker, if_true,
      Option.map_none]

/-- An Update with an old tuple: the new tuple is read where the old one ends. -/
theorem handleUpdate_encode_old (ht : Tracks P earlier parser) {oid : UInt32} (kind : OldKind)
    {old new : List Datum} (hold : TupleFor earlier oid old) (hnew : TupleFor earlier oid new)
    (lsn : ℕ) {body : Bytes}
    (h : body = beBytes 4 oid.toNat ++ [ascii kind.tag] ++ encodeTuple old ++ [ascii 'N']
      ++ encodeTuple new) :
    parser.handleUpdate body lsn =
      .ok (referenceEvent P earlier lsn (.update oid (some (kind, old)) new)) := by
  simp only [List.append_assoc] at h
  have hoid := unpack_oid h
  have hrel := ht.relations oid
  cases ha : latestRelation earlier oid with
  | none =>
    rw [ha] at hrel
    simp only [handleUpdate, hoid, hrel, referenceEvent, rowEvent, ha, bind, Except.bind, pure,
      Except.pure, Option.map_none]
  | some a =>
    rw [ha] at hrel
    have hdrop : body.drop 4 = ascii kind.tag :: (encodeTuple old ++ ascii 'N' :: encodeTuple new) :=
      drop_past_oid h
    have hkind : byteAt body 4 = .ok (ascii kind.tag) := byteAt_at hdrop
    have hdrop₁ : body.drop 5 = encodeTuple old ++ ascii 'N' :: encodeTuple new :=
      drop_past_byte hdrop
    have hbefore := readTuple_for ht ha hold hdrop₁
    have hdrop₂ := drop_past_field hdrop₁
    have hmark : byteAt body (5 + (encodeTuple old).length) = .ok (ascii 'N') := byteAt_at hdrop₂
    have hafter := readTuple_last ht ha hnew hdrop₂
    rw [referenceEvent, rowEvent_of_announced ht ha]
    simp only [handleUpdate, hoid, hrel, hkind, hbefore, hmark, hafter, bind, Except.bind, pure,
      Except.pure, Option.map_some, if_pos kind.marksOld, show chr (ascii 'N') = 'N' from rfl,
      if_true]

/-! ### One message, one stream -/

theorem parse_tag_begin (body : Bytes) (lsn : ℕ) :
    parser.parse P (ascii 'B' :: body) lsn =
      ((parser.handleBegin P body).1, catching ((parser.handleBegin P body).2.map fun _ => none)) := by
  rw [parse, show chr (ascii 'B') = 'B' from rfl]
  rfl

theorem parse_tag_relation {body : Bytes} {parser' : PgOutputParser}
    (h : parser.handleRelation body = .ok parser') (lsn : ℕ) :
    parser.parse P (ascii 'R' :: body) lsn = (parser', .ok none) := by
  rw [parse, show chr (ascii 'R') = 'R' from rfl]
  simp only [if_neg (show ¬ 'R' = 'B' by decide), if_true, h]

theorem parse_tag_insert (body : Bytes) (lsn : ℕ) :
    parser.parse P (ascii 'I' :: body) lsn = (parser, catching (parser.handleInsert body lsn)) := by
  rw [parse, show chr (ascii 'I') = 'I' from rfl]
  simp only [if_neg (show ¬ 'I' = 'B' by decide), if_neg (show ¬ 'I' = 'R' by decide), if_true]

theorem parse_tag_update (body : Bytes) (lsn : ℕ) :
    parser.parse P (ascii 'U' :: body) lsn = (parser, catching (parser.handleUpdate body lsn)) := by
  rw [parse, show chr (ascii 'U') = 'U' from rfl]
  simp only [if_neg (show ¬ 'U' = 'B' by decide), if_neg (show ¬ 'U' = 'R' by decide),
    if_neg (show ¬ 'U' = 'I' by decide), if_true]

theorem parse_tag_delete (body : Bytes) (lsn : ℕ) :
    parser.parse P (ascii 'D' :: body) lsn = (parser, catching (parser.handleDelete body lsn)) := by
  rw [parse, show chr (ascii 'D') = 'D' from rfl]
  simp only [if_neg (show ¬ 'D' = 'B' by decide), if_neg (show ¬ 'D' = 'R' by decide),
    if_neg (show ¬ 'D' = 'I' by decide), if_neg (show ¬ 'D' = 'U' by decide), if_true]

/-- A message that is neither a Relation nor a Begin leaves what the parser tracks as it is. -/
theorem Tracks.of_unchanged (ht : Tracks P earlier parser) {m : Message}
    (hrel : ∀ oid, latestRelation (m :: earlier) oid = latestRelation earlier oid)
    (hbegin : latestBegin (m :: earlier) = latestBegin earlier) : Tracks P (m :: earlier) parser where
  relations oid := by rw [hrel oid]; exact ht.relations oid
  distinct oid a h := ht.distinct oid a (by rw [← hrel oid]; exact h)
  commitLsn := by rw [commitLsnAt, hbegin]; exact ht.commitLsn
  tsMs := by rw [tsMsAt, hbegin]; exact ht.tsMs

/-- **One message**: the parser returns the reference event and goes on tracking the stream. -/
theorem parse_encode (ht : Tracks P earlier parser) {m : Message} (hm : m.WellFormed earlier)
    (lsn : ℕ) :
    (parser.parse P m.encode lsn).2 = .ok (referenceEvent P earlier lsn m) ∧
      Tracks P (m :: earlier) (parser.parse P m.encode lsn).1 := by
  cases m with
  | begin finalLsn commitTs xid =>
    rw [Message.encode, parse_tag_begin, handleBegin_encode finalLsn xid hm rfl]
    exact ⟨rfl, ht.relations, ht.distinct, rfl, rfl⟩
  | relation oid namespace_ table replicaIdentity columns =>
    obtain ⟨hns, htable, hsize, hdistinct, hnul⟩ := hm
    rw [Message.encode, parse_tag_relation
      (handleRelation_encode oid replicaIdentity hns htable hsize hnul rfl)]
    refine ⟨rfl, ?_, ?_, ht.commitLsn, ht.tsMs⟩
    · intro oid'
      rw [Dict.get?_set, latestRelation]
      by_cases h : oid = oid'
      · rw [if_pos h, h, if_pos rfl, Option.map_some]
      · rw [if_neg h, if_neg (fun he => h (UInt32.toNat_inj.mp he).symm), ht.relations oid']
    · intro oid' a ha
      rw [latestRelation] at ha
      by_cases h : oid = oid'
      · rw [if_pos h, Option.some.injEq] at ha
        rw [← ha]
        exact hdistinct
      · rw [if_neg h] at ha
        exact ht.distinct oid' a ha
  | insert oid new =>
    rw [Message.encode, parse_tag_insert, handleInsert_encode ht hm lsn rfl]
    exact ⟨rfl, ht.of_unchanged (fun _ => rfl) rfl⟩
  | update oid old new =>
    cases old with
    | none =>
      rw [Message.encode, parse_tag_update, handleUpdate_encode_new ht hm.2 lsn rfl]
      exact ⟨rfl, ht.of_unchanged (fun _ => rfl) rfl⟩
    | some o =>
      obtain ⟨kind, old⟩ := o
      rw [Message.encode, parse_tag_update,
        handleUpdate_encode_old ht kind (hm.1 (kind, old) rfl) hm.2 lsn rfl]
      exact ⟨rfl, ht.of_unchanged (fun _ => rfl) rfl⟩
  | delete oid kind old =>
    rw [Message.encode, parse_tag_delete, handleDelete_encode ht kind hm lsn rfl]
    exact ⟨rfl, ht.of_unchanged (fun _ => rfl) rfl⟩
  | skipped tag body =>
    have hparse : parser.parse P (Message.skipped tag body).encode lsn = (parser, .ok none) := by
      cases tag <;> rfl
    rw [hparse]
    exact ⟨rfl, ht.of_unchanged (fun _ => rfl) rfl⟩

end Messages

/-- A stream as the slot delivers it. -/
def encodeStream (ms : List (ℕ × Message)) : List (ℕ × Bytes) := ms.map fun p => (p.1, p.2.encode)

/-- The run lemma, from any parser that tracks the messages before. -/
theorem feed_encode_from {P : Platform} (ms : List (ℕ × Message)) : ∀ {earlier : List Message}
    {parser : PgOutputParser}, Tracks P earlier parser → WellFormedStream earlier ms →
      feed P parser (encodeStream ms) = (referenceEvents P earlier ms).map .ok := by
  induction ms with
  | nil => intro _ _ _ _; rfl
  | cons p ms ih =>
    intro earlier parser ht hwf
    obtain ⟨lsn, m⟩ := p
    obtain ⟨hevent, ht'⟩ := parse_encode ht hwf.1 lsn
    show (parser.parse P m.encode lsn).2 :: feed P _ (encodeStream ms) = _
    rw [hevent, ih ht' hwf.2]
    rfl

/-- **Stream decode undoes encode.**  One parser, fed the encodings of any well-formed stream in
order, returns exactly the events the stream denotes. -/
theorem feed_encode (P : Platform) (ms : List (ℕ × Message)) (h : WellFormedStream [] ms) :
    feed P .new (encodeStream ms) = (referenceEvents P [] ms).map .ok :=
  feed_encode_from ms (tracks_new P) h

/-- A session with a Begin, a Relation of two columns, an Insert, an Update carrying the old row
and a Delete for an OID never announced. -/
def sampleSession : List (ℕ × Message) :=
  [(100, .begin 500 0 42),
   (101, .relation 1 "public" "customers" 1 [⟨1, "id", 23, 0⟩, ⟨0, "email", 25, 0⟩]),
   (102, .insert 1 [.text "7", .null]),
   (103, .update 1 (some (.full, [.text "7", .null])) [.text "7", .unchanged]),
   (104, .delete 2 .key [.text "7"])]

theorem sampleSession_wellFormed : WellFormedStream [] sampleSession := by
  decide +kernel

theorem feed_encode_sampleSession :
    WellFormedStream [] sampleSession ∧
      feed .ascii .new (encodeStream sampleSession) =
        (referenceEvents .ascii [] sampleSession).map .ok :=
  ⟨sampleSession_wellFormed, feed_encode .ascii sampleSession sampleSession_wellFormed⟩

example : ((referenceEvents .ascii [] sampleSession).map fun e => e.map ChangeEvent.op) =
    [none, none, some .c, some .u, none] := by
  decide

end PgSnowflakeCdc
