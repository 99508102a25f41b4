import PgSnowflakeCdc.JsonFile
import PgSnowflakeCdc.Scripts.BackfillRuns

/-!
# The checkpoint file

`Backfill` writes a checkpoint in one step.  The script opens the file for writing, which empties it, and
then writes its text: a process that ends meanwhile leaves the front of the text.

* `checkpointFields`, `saveCheckpoint`, `readCheckpoint` — the dictionary, its text, and what
  `_load_checkpoint` makes of a file;
* `FileState`, `FileState.step` — the script over the text of its file, with saves that break off;
* `checkpoint_file_run` — **a broken save is never misread**: the target tables are always those of a
  history of `Backfill`; the file reads as its checkpoint unless a save broke off, and then no process
  gets past it.
-/

namespace PgSnowflakeCdc

open OrderedDict Paging

namespace Backfill

/-! ### The text of a checkpoint -/

/-- The dictionary `cp`, in the order in which `_load_checkpoint` builds it. -/
def checkpointFields (cp : Checkpoint) : List (String × Json) :=
  backfillTables.map (fun t => (t.1 ++ "_last_id", .int (cp.lastId t.1))) ++
    backfillTables.map fun t => (t.1 ++ "_done", .bool (cp.done t.1))

/-- `_save_checkpoint`, when it is not interrupted. -/
def saveCheckpoint (cp : Checkpoint) : String := Json.dumpFlat (checkpointFields cp)

/-- `cp.get(id_key, 0)` and `cp.get(done_key)` of a dictionary that was read. -/
def checkpointOf (d : Dict String Json) : Checkpoint where
  lastId pgTable :=
    match d.get? (pgTable ++ "_last_id") with
    | some (.int lastId) => lastId
    | _ => 0
  done pgTable :=
    match d.get? (pgTable ++ "_done") with
    | some (.bool done) => done
    | _ => false

/-- `_load_checkpoint`; nothing when `json.load` raises, or `cp.get` because the file holds no dictionary. -/
def readCheckpoint (text : Option String) : Option Checkpoint :=
  match text with
  | none => some (loadCheckpoint none)
  | some text =>
    match Json.loads text with
    | some (.obj kvs) => some (checkpointOf (Dict.ofPairs kvs))
    | _ => none

/-- Nothing is recorded for a table that the script does not load. -/
def Listed (cp : Checkpoint) : Prop :=
  ∀ pgTable, pgTable ∉ backfillTables.map Prod.fst → cp.lastId pgTable = 0 ∧ cp.done pgTable = false

theorem written_checkpointFields (cp : Checkpoint) : ∀ kv ∈ checkpointFields cp, kv.2.Written := by
  intro kv hkv
  rcases List.mem_append.mp hkv with hkv | hkv
  · obtain ⟨t, -, rfl⟩ := List.mem_map.mp hkv
    exact Json.written_int _
  · obtain ⟨t, -, rfl⟩ := List.mem_map.mp hkv
    simp [Json.Written, Json.floats]

theorem braceFree_checkpointFields (cp : Checkpoint) : Json.BraceFree (checkpointFields cp) := by
  have hint : ∀ i : ℤ, '\x7d' ∉ (Json.dumps (.int i)).toList := by
    intro i hmem
    exact absurd (Json.isWordChar_int hmem) (by decide)
  have hbool : ∀ b : Bool, '\x7d' ∉ (Json.dumps (.bool b)).toList := by decide
  have hkey : ∀ t ∈ backfillTables, ∀ suffix ∈ ["_last_id", "_done"],
      '\x7d' ∉ (t.1 ++ suffix).toList.flatMap Json.escapeChar := by decide
  have hfield : ∀ t ∈ backfillTables, ∀ suffix ∈ ["_last_id", "_done"], ∀ text : List Char,
      '\x7d' ∉ text → '\x7d' ∉ Json.fieldText (t.1 ++ suffix) text := by
    intro t ht suffix hsuffix text htext
    have hfree := hkey t ht suffix hsuffix
    simp only [Json.fieldText, List.mem_cons, List.mem_append, not_or]
    exact ⟨by decide, hfree, by decide, by decide, by decide, htext⟩
  intro kv hkv
  rcases List.mem_append.mp hkv with hkv | hkv
  · obtain ⟨t, ht, rfl⟩ := List.mem_map.mp hkv
    exact hfield t ht "_last_id" (by decide) _ (hint _)
  · obtain ⟨t, ht, rfl⟩ := List.mem_map.mp hkv
    exact hfield t ht "_done" (by decide) _ (hbool _)

theorem append_right_cancel {x y z : String} (h : x ++ z = y ++ z) : x = y := by
  have hlist := congrArg String.toList h
  rw [String.toList_append, String.toList_append] at hlist
  exact String.toList_inj.mp (List.append_cancel_right hlist)

/-- The keys of the two kinds differ in their last letter. -/
theorem lastId_ne_done (x y : String) : x ++ "_last_id" ≠ y ++ "_done" := by
  intro h
  have hlast := congrArg (fun s => s.toList.getLast?) h
  simp [String.toList_append] at hlast

theorem get?_checkpointFields_of_unlisted (cp : Checkpoint) {pgTable : String}
    (h : pgTable ∉ backfillTables.map Prod.fst) :
    (Dict.ofPairs (checkpointFields cp)).get? (pgTable ++ "_last_id") = none ∧
      (Dict.ofPairs (checkpointFields cp)).get? (pgTable ++ "_done") = none := by
  have hne : ∀ t ∈ backfillTables, t.1 ≠ pgTable := by
    intro t ht heq
    exact h (List.mem_map.mpr ⟨t, ht, heq⟩)
  have hnone : ∀ k, (∀ t ∈ backfillTables, t.1 ++ "_last_id" ≠ k ∧ t.1 ++ "_done" ≠ k) →
      (Dict.ofPairs (checkpointFields cp)).get? k = none := by
    intro k hk
    rw [Dict.get?_eq_none_iff, Dict.mem_keys_ofPairs, checkpointFields, List.map_append, List.map_map,
      List.map_map, List.mem_append, not_or]
    constructor
    · intro hmem
      obtain ⟨t, ht, heq⟩ := List.mem_map.mp hmem
      exact (hk t ht).1 heq
    · intro hmem
      obtain ⟨t, ht, heq⟩ := List.mem_map.mp hmem
      exact (hk t ht).2 heq
  constructor
  · exact hnone _ fun t ht =>
      ⟨fun heq => hne t ht (append_right_cancel heq), (lastId_ne_done _ _).symm⟩
  · exact hnone _ fun t ht =>
      ⟨lastId_ne_done _ _, fun heq => hne t ht (append_right_cancel heq)⟩

theorem checkpointOf_fields {cp : Checkpoint} (h : Listed cp) :
    checkpointOf (Dict.ofPairs (checkpointFields cp)) = cp := by
  have hlisted : ∀ pgTable ∈ backfillTables.map Prod.fst,
      (checkpointOf (Dict.ofPairs (checkpointFields cp))).lastId pgTable = cp.lastId pgTable ∧
        (checkpointOf (Dict.ofPairs (checkpointFields cp))).done pgTable = cp.done pgTable := by
    intro pgTable hmem
    simp only [backfillTables, List.map_cons, List.map_nil, List.mem_cons, List.not_mem_nil,
      or_false] at hmem
    rcases hmem with heq | heq
    · rw [heq]
      exact ⟨rfl, rfl⟩
    · rw [heq]
      exact ⟨rfl, rfl⟩
  have hvalue : ∀ pgTable,
      (checkpointOf (Dict.ofPairs (checkpointFields cp))).lastId pgTable = cp.lastId pgTable ∧
        (checkpointOf (Dict.ofPairs (checkpointFields cp))).done pgTable = cp.done pgTable := by
    intro pgTable
    by_cases hmem : pgTable ∈ backfillTables.map Prod.fst
    · exact hlisted pgTable hmem
    · obtain ⟨hid, hdone⟩ := get?_checkpointFields_of_unlisted cp hmem
      simp [checkpointOf, hid, hdone, h pgTable hmem]
  obtain ⟨lastId, done⟩ := cp
  exact congrArg₂ Checkpoint.mk (funext fun t => (hvalue t).1) (funext fun t => (hvalue t).2)

/-- **A saved checkpoint is read back.** -/
theorem readCheckpoint_saveCheckpoint {cp : Checkpoint} (h : Listed cp) :
    readCheckpoint (some (saveCheckpoint cp)) = some cp := by
  rw [readCheckpoint, saveCheckpoint, Json.loads_dumpFlat (written_checkpointFields cp)]
  exact congrArg some (checkpointOf_fields h)

/-- **A save that broke off leaves a file that cannot be read.** -/
theorem readCheckpoint_cut (cp : Checkpoint) {n : ℕ} (hn : n < (saveCheckpoint cp).toList.length) :
    readCheckpoint (some (String.ofList ((saveCheckpoint cp).toList.take n))) = none := by
  have hne : checkpointFields cp ≠ [] := List.cons_ne_nil _ _
  rw [readCheckpoint, saveCheckpoint, Json.loads_dumpFlat_cut hne (braceFree_checkpointFields cp) hn]

/-! ### The script over its file -/

/-- A running process with its checkpoint, the text of the checkpoint file, and the target tables. -/
structure FileState where
  control : Control
  cp : Checkpoint
  text : Option String
  tables : Store

/-- Before the first run, over arbitrary tables. -/
def FileState.initial (tables : Store) : FileState := ⟨.stopped, loadCheckpoint none, none, tables⟩

/-- What happens next: the process goes on, it ends where it is, or it ends in the save of its next step,
of which `written` characters are in the file. -/
inductive FileInput where
  | proceed (o : KeyOrder rowId) : FileInput
  | crash : FileInput
  | breakOff (o : KeyOrder rowId) (written : ℕ) : FileInput

namespace FileState

variable (P : Platform) (cfg : BackfillConfig) (source : BackfillSource)

/-- The process after its next step, and in `file` what that step saves. -/
def next (o : KeyOrder rowId) (f : FileState) : State :=
  Backfill.proceed P cfg source o ⟨f.control, f.cp, none, f.tables⟩

/-- The process goes on by one step; one that cannot read its checkpoint has raised. -/
def proceed (o : KeyOrder rowId) (f : FileState) : FileState :=
  match f.control with
  | .stopped =>
    match readCheckpoint f.text with
    | some cp => { f with control := .nextTable backfillTables, cp := cp }
    | none => f
  | _ =>
    let s := f.next P cfg source o
    ⟨s.control, s.cp, (s.file.map saveCheckpoint).or f.text, s.tables⟩

def crash (f : FileState) : FileState :=
  match f.control with
  | .completed => f
  | _ => { f with control := .stopped }

/-- The file was emptied and the front of the new text written to it. -/
def breakOff (o : KeyOrder rowId) (written : ℕ) (f : FileState) : FileState :=
  match (f.next P cfg source o).file with
  | some cp =>
    ⟨.stopped, f.cp, some (String.ofList ((saveCheckpoint cp).toList.take written)), f.tables⟩
  | none => f.crash

def step : FileInput → FileState → FileState
  | .proceed o, f => f.proceed P cfg source o
  | .crash, f => f.crash
  | .breakOff o written, f => f.breakOff P cfg source o written

/-- A history of runs. -/
def run (inputs : List FileInput) (f : FileState) : FileState :=
  Replay.run (step P cfg source) inputs f

/-- A save ends before its last character is written. -/
def Broken (f : FileState) : FileInput → Prop
  | .breakOff o written =>
    match (f.next P cfg source o).file with
    | some cp => written < (saveCheckpoint cp).toList.length
    | none => False
  | _ => False

end FileState

/-! ### What a step saves -/

section Steps

variable {P : Platform} {cfg : BackfillConfig} {source : BackfillSource}

/-- **A running process does not look at its file**, which changes only when a step saves. -/
theorem proceed_file (o : KeyOrder rowId) {s : State} (h : s.control ≠ .stopped) :
    let n := proceed P cfg source o { s with file := none }
    (proceed P cfg source o s).control = n.control ∧ (proceed P cfg source o s).cp = n.cp ∧
      (proceed P cfg source o s).tables = n.tables ∧
      (proceed P cfg source o s).file = n.file.or s.file := by
  obtain ⟨control, cp, file, tables⟩ := s
  cases control with
  | stopped => exact absurd rfl h
  | nextTable rest =>
      cases rest with
      | nil => exact ⟨rfl, rfl, rfl, rfl⟩
      | cons t rest =>
          simp only [proceed]
          split
          · exact ⟨rfl, rfl, rfl, rfl⟩
          · exact ⟨rfl, rfl, rfl, rfl⟩
  | truncating load => exact ⟨rfl, rfl, rfl, rfl⟩
  | querying load => exact ⟨rfl, rfl, rfl, rfl⟩
  | inserting load page left =>
      simp only [proceed]
      split
      · exact ⟨rfl, rfl, rfl, rfl⟩
      · split
        · exact ⟨rfl, rfl, rfl, rfl⟩
        · exact ⟨rfl, rfl, rfl, rfl⟩
  | finishing load => exact ⟨rfl, rfl, rfl, rfl⟩
  | completed => exact ⟨rfl, rfl, rfl, rfl⟩

/-- **A save changes no table**, and is neither the first nor the last step of a process. -/
theorem proceed_saves (o : KeyOrder rowId) {s : State} (hfile : s.file = none) {cp : Checkpoint}
    (h : (proceed P cfg source o s).file = some cp) :
    (proceed P cfg source o s).tables = s.tables ∧ s.control ≠ .stopped ∧
      (proceed P cfg source o s).control ≠ .completed := by
  obtain ⟨control, cp', file, tables⟩ := s
  have hnone : file = none := hfile
  subst hnone
  cases control with
  | stopped => cases h
  | nextTable rest =>
      cases rest with
      | nil => cases h
      | cons t rest =>
          simp only [proceed] at h
          split at h <;> cases h
  | truncating load => cases h
  | querying load => cases h
  | inserting load page left =>
      simp only [proceed] at h ⊢
      split at h
      · next hleft =>
        rw [if_pos hleft]
        exact ⟨rfl, by simp, by simp⟩
      · split at h <;> cases h
  | finishing load => exact ⟨rfl, by simp, by simp [proceed]⟩
  | completed => cases h

/-- A checkpoint set for a table of the script. -/
theorem Listed.set {cp : Checkpoint} (h : Listed cp) {load : Load}
    (hload : (load.pgTable, load.sfTable) ∈ backfillTables) (lastId : ℤ) :
    Listed (cp.setLastId load.pgTable lastId) ∧
      Listed ((cp.setLastId load.pgTable lastId).setDone load.pgTable) := by
  have hne : ∀ pgTable, pgTable ∉ backfillTables.map Prod.fst → pgTable ≠ load.pgTable := by
    intro pgTable hmem heq
    exact hmem (heq ▸ List.mem_map.mpr ⟨_, hload, rfl⟩)
  have hset : Listed (cp.setLastId load.pgTable lastId) := by
    intro pgTable hmem
    rw [Checkpoint.lastId_setLastId, if_neg (hne pgTable hmem)]
    exact h pgTable hmem
  refine ⟨hset, fun pgTable hmem => ?_⟩
  rw [Checkpoint.done_setDone, if_neg (hne pgTable hmem)]
  exact hset pgTable hmem

/-- The script records its own tables only. -/
theorem listed_step {s : State} (hs : Consistent P cfg source s) (h : Listed s.saved) (i : Input) :
    Listed (step P cfg source i s).saved := by
  obtain ⟨control, cp, file, tables⟩ := s
  cases i with
  | crash =>
      cases control with
      | completed => exact h
      | _ => exact h
  | proceed o =>
      have hcp := hs.cp
      have hplaced := hs.placed
      cases control with
      | stopped => exact h
      | nextTable rest =>
          cases rest with
          | nil => exact h
          | cons t rest =>
              simp only [step, proceed]
              split <;> exact h
      | truncating load => exact h
      | querying load => exact h
      | inserting load page left =>
          have hsaved : cp = loadCheckpoint file := hcp.resolve_left (by simp)
          simp only [step, proceed]
          split
          · rw [hsaved]
            exact (Listed.set h hplaced.1.mem _).1
          · split <;> exact h
      | finishing load =>
          have hsaved : cp = loadCheckpoint file := hcp.resolve_left (by simp)
          simp only [step, proceed]
          rw [hsaved]
          exact (Listed.set h hplaced.1.mem _).2
      | completed => exact h

end Steps

/-! ### The script over its file is the script -/

/-- The file holds the text of the last checkpoint saved, and the process is where it should be. -/
structure Follows (P : Platform) (cfg : BackfillConfig) (source : BackfillSource) (f : FileState)
    (s : State) : Prop where
  control : f.control = s.control
  cp : f.control = .stopped ∨ f.cp = s.cp
  text : f.text = s.file.map saveCheckpoint
  tables : f.tables = s.tables
  consistent : Consistent P cfg source s
  listed : Listed s.saved

section Follows

variable {P : Platform} {cfg : BackfillConfig} {source : BackfillSource} {f : FileState} {s : State}

theorem follows_initial (tables : Store) :
    Follows P cfg source (.initial tables) (.initial tables) where
  control := rfl
  cp := Or.inl rfl
  text := rfl
  tables := rfl
  consistent := consistent_initial tables
  listed := fun _ _ => ⟨rfl, rfl⟩

theorem Follows.reads (h : Follows P cfg source f s) : readCheckpoint f.text = some s.saved := by
  have hlisted := h.listed
  rw [h.text]
  rw [State.saved] at hlisted ⊢
  cases hfile : s.file with
  | none => rfl
  | some cp =>
      rw [hfile] at hlisted
      exact readCheckpoint_saveCheckpoint hlisted

theorem Follows.crash (h : Follows P cfg source f s) :
    Follows P cfg source f.crash (step P cfg source .crash s) := by
  obtain ⟨hcontrol, hcp, htext, htables, hconsistent, hlisted⟩ := h
  have hconsistent' := hconsistent.step .crash
  have hlisted' := listed_step hconsistent hlisted .crash
  obtain ⟨control, cp, text, tables⟩ := f
  obtain ⟨control', cp', file, tables'⟩ := s
  have hsame : control = control' := hcontrol
  subst hsame
  cases control with
  | completed => exact ⟨rfl, Or.inr (hcp.resolve_left (by simp)), htext, htables, hconsistent', hlisted'⟩
  | _ => exact ⟨rfl, Or.inl rfl, htext, htables, hconsistent', hlisted'⟩

/-- What the next step does to the process, read off the script. -/
theorem Follows.next (h : Follows P cfg source f s) (hrun : f.control ≠ .stopped) (o : KeyOrder rowId) :
    (Backfill.proceed P cfg source o s).control = (f.next P cfg source o).control ∧
      (Backfill.proceed P cfg source o s).cp = (f.next P cfg source o).cp ∧
      (Backfill.proceed P cfg source o s).tables = (f.next P cfg source o).tables ∧
      (Backfill.proceed P cfg source o s).file = (f.next P cfg source o).file.or s.file := by
  have hstate : (⟨f.control, f.cp, none, f.tables⟩ : State) = { s with file := none } := by
    rw [h.control, h.cp.resolve_left hrun, h.tables]
  rw [FileState.next, hstate]
  exact proceed_file o (h.control ▸ hrun)

theorem Follows.proceed (h : Follows P cfg source f s) (o : KeyOrder rowId) :
    Follows P cfg source (f.proceed P cfg source o) (step P cfg source (.proceed o) s) := by
  have hconsistent := h.consistent.step (.proceed o)
  have hlisted := listed_step h.consistent h.listed (.proceed o)
  by_cases hrun : f.control = .stopped
  · have hreads := h.reads
    have hstopped : s.control = .stopped := h.control.symm.trans hrun
    have hstep : step P cfg source (.proceed o) s
        = { s with control := .nextTable backfillTables, cp := s.saved } := by
      rw [step, Backfill.proceed, hstopped]
      rfl
    have hfile : f.proceed P cfg source o
        = { f with control := .nextTable backfillTables, cp := s.saved } := by
      rw [FileState.proceed, hrun]
      dsimp only
      rw [hreads]
    rw [hstep] at hconsistent hlisted ⊢
    rw [hfile]
    exact ⟨rfl, Or.inr rfl, h.text, h.tables, hconsistent, hlisted⟩
  · obtain ⟨hcontrol, hcp, htables, hsaved⟩ := h.next hrun o
    have hfile : f.proceed P cfg source o =
        ⟨(f.next P cfg source o).control, (f.next P cfg source o).cp,
          ((f.next P cfg source o).file.map saveCheckpoint).or f.text,
          (f.next P cfg source o).tables⟩ := by
      rw [FileState.proceed]
      split
      · next hstopped => exact absurd hstopped hrun
      · rfl
    rw [hfile]
    refine ⟨hcontrol.symm, Or.inr hcp.symm, ?_, htables.symm, hconsistent, hlisted⟩
    show _ = (Backfill.proceed P cfg source o s).file.map saveCheckpoint
    rw [hsaved, h.text]
    cases (f.next P cfg source o).file with
    | none => rfl
    | some cp => rfl

/-- **One step**, unless it breaks a save off, is some steps of the script. -/
theorem Follows.step (h : Follows P cfg source f s) {i : FileInput} (hi : ¬ f.Broken P cfg source i) :
    ∃ inputs, Follows P cfg source (f.step P cfg source i) (run P cfg source inputs s) := by
  cases i with
  | proceed o => exact ⟨[.proceed o], h.proceed o⟩
  | crash => exact ⟨[.crash], h.crash⟩
  | breakOff o written =>
      rw [FileState.step, FileState.breakOff]
      rw [FileState.Broken] at hi
      cases hsaved : (f.next P cfg source o).file with
      | none => exact ⟨[.crash], h.crash⟩
      | some cp =>
          -- the whole text was written before the process ended
          obtain ⟨htables, hrun, hcompleted⟩ := proceed_saves o rfl hsaved
          obtain ⟨hcontrol, -, htables', hfile⟩ := h.next hrun o
          have hwhole : (saveCheckpoint cp).toList.take written = (saveCheckpoint cp).toList := by
            rw [hsaved] at hi
            exact List.take_of_length_le (by simpa using hi)
          have hproceed := h.proceed o
          refine ⟨[.proceed o, .crash], ?_⟩
          have hstopped : (Backfill.crash (Backfill.proceed P cfg source o s)).control = .stopped := by
            have hne : (Backfill.proceed P cfg source o s).control ≠ .completed := by
              rw [hcontrol]
              exact hcompleted
            rw [Backfill.crash]
            split
            · next hdone => exact absurd hdone hne
            · rfl
          have hkeeps : ∀ t : State, (Backfill.crash t).file = t.file ∧
              (Backfill.crash t).tables = t.tables := by
            intro t
            rw [Backfill.crash]
            split
            · exact ⟨rfl, rfl⟩
            · exact ⟨rfl, rfl⟩
          have hcrash := hproceed.crash
          refine ⟨hstopped.symm, Or.inl rfl, ?_, ?_, hcrash.consistent, hcrash.listed⟩
          · show some _ = (Backfill.crash (Backfill.proceed P cfg source o s)).file.map saveCheckpoint
            rw [(hkeeps _).1, hfile, hsaved, hwhole, String.ofList_toList]
            rfl
          · show f.tables = (Backfill.crash (Backfill.proceed P cfg source o s)).tables
            rw [(hkeeps _).2, htables']
            exact htables.symm

/-- No process reads the file, and none is running. -/
def FileState.Stuck (f : FileState) : Prop := f.control = .stopped ∧ readCheckpoint f.text = none

theorem FileState.Stuck.step (h : f.Stuck) (i : FileInput) : f.step P cfg source i = f := by
  obtain ⟨control, cp, text, tables⟩ := f
  obtain ⟨hcontrol, hreads⟩ := h
  have hstopped : control = .stopped := hcontrol
  subst hstopped
  cases i with
  | proceed o =>
      rw [FileState.step, FileState.proceed]
      dsimp only
      rw [hreads]
  | crash => rfl
  | breakOff o written => rfl

theorem FileState.Stuck.run (h : f.Stuck) (inputs : List FileInput) : f.run P cfg source inputs = f := by
  induction inputs with
  | nil => rfl
  | cons i inputs ih =>
      rw [FileState.run, Replay.run_cons, h.step]
      exact ih

/-- **A save that breaks off** stops the script for good, and changes no table. -/
theorem Follows.broken (h : Follows P cfg source f s) {i : FileInput} (hi : f.Broken P cfg source i) :
    (f.step P cfg source i).Stuck ∧ (f.step P cfg source i).tables = s.tables := by
  cases i with
  | proceed o => exact hi.elim
  | crash => exact hi.elim
  | breakOff o written =>
      rw [FileState.Broken] at hi
      rw [FileState.step, FileState.breakOff]
      cases hsaved : (f.next P cfg source o).file with
      | none =>
          rw [hsaved] at hi
          exact hi.elim
      | some cp =>
          rw [hsaved] at hi
          exact ⟨⟨rfl, readCheckpoint_cut cp hi⟩, h.tables⟩

end Follows

/-- No save of the history breaks off. -/
def FileState.Unbroken (P : Platform) (cfg : BackfillConfig) (source : BackfillSource)
    (inputs : List FileInput) (f : FileState) : Prop :=
  Replay.Along (FileState.step P cfg source) (fun f i => ¬ f.Broken P cfg source i) inputs f

/-- The induction is on the history; a broken save ends it early. -/
theorem follows_run {P : Platform} {cfg : BackfillConfig} {source : BackfillSource}
    (inputs : List FileInput) {f : FileState} {s : State} (h : Follows P cfg source f s) :
    ∃ runs, (f.run P cfg source inputs).tables = (run P cfg source runs s).tables ∧
      (f.Unbroken P cfg source inputs →
        Follows P cfg source (f.run P cfg source inputs) (run P cfg source runs s)) ∧
      (¬ f.Unbroken P cfg source inputs → (f.run P cfg source inputs).Stuck) := by
  induction inputs generalizing f s with
  | nil => exact ⟨[], h.tables, fun _ => h, fun hbroken => absurd trivial hbroken⟩
  | cons i inputs ih =>
      have hcons : f.run P cfg source (i :: inputs) = (f.step P cfg source i).run P cfg source inputs := rfl
      by_cases hi : f.Broken P cfg source i
      · obtain ⟨hstuck, htables⟩ := h.broken hi
        rw [hcons, hstuck.run]
        exact ⟨[], htables, fun hunbroken => absurd hi hunbroken.1, fun _ => hstuck⟩
      · obtain ⟨first, hstep⟩ := h.step hi
        obtain ⟨runs, htables, hfollows, hstuck⟩ := ih hstep
        have happend : run P cfg source (first ++ runs) s
            = run P cfg source runs (run P cfg source first s) := Replay.run_append _ first runs s
        refine ⟨first ++ runs, ?_, ?_, ?_⟩
        · rw [hcons, happend]
          exact htables
        · intro hunbroken
          rw [hcons, happend]
          exact hfollows hunbroken.2
        · intro hbroken
          rw [hcons]
          exact hstuck fun hrest => hbroken ⟨hi, hrest⟩

/-- **A broken save is never misread.**  Whatever history the script has, its saves included, the target
tables are those of a history of `Backfill`, where a save is one step.  As long as no save has broken off
the file reads as the checkpoint of that history and the process is where that history says; once one has,
no process gets past reading the file, and nothing changes any more. -/
theorem checkpoint_file_run (P : Platform) (cfg : BackfillConfig) (source : BackfillSource)
    (tables : Store) (inputs : List FileInput) :
    let f := (FileState.initial tables).run P cfg source inputs
    ∃ runs, let s := run P cfg source runs (.initial tables)
      f.tables = s.tables ∧
        ((FileState.initial tables).Unbroken P cfg source inputs →
          f.control = s.control ∧ readCheckpoint f.text = some s.saved) ∧
        (¬ (FileState.initial tables).Unbroken P cfg source inputs →
          ∀ more, f.run P cfg source more = f ∧ readCheckpoint f.text = none) := by
  intro f
  obtain ⟨runs, htables, hfollows, hstuck⟩ := follows_run inputs (follows_initial tables)
  refine ⟨runs, htables, ?_, ?_⟩
  · intro hunbroken
    exact ⟨(hfollows hunbroken).control, (hfollows hunbroken).reads⟩
  · intro hbroken more
    exact ⟨(hstuck hbroken).run more, (hstuck hbroken).2⟩

/-- The first save of a script that finds no rows breaks off after five characters; `json.load` raises. -/
example :
    let source : BackfillSource := ⟨fun _ => [], fun _ => [], fun _ _ h => absurd h List.not_mem_nil⟩
    let go : FileInput := .proceed (.stable rowId)
    let f := (FileState.initial fun _ => []).run .ascii ⟨10, 10, by decide, by decide⟩ source
      [go, go, go, go, .breakOff (.stable rowId) 5]
    f.text = some "\x7b\n  \"" ∧ (f.text.bind Json.loads).isNone := by
  decide +kernel

end Backfill

end PgSnowflakeCdc
