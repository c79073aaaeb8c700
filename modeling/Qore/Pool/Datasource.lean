import Mathlib.Logic.Basic

/-!
# `Qore.Pool.Datasource`: one connection

The model of `lib/Datasource.cpp` and `intern/qore_ds_private.h` as far as transactions go: the
flags of a connection, and what the calls do with them. What the database driver does is a part
of the input: each call into it succeeds, raises an exception, or also tells the connection that
it is lost (`connectionAborted`), and a call that executes SQL may hand out a statement that
stays open on the connection (`setStatementKeepLock`).

* `Sound` relates the flags: a connection in a transaction is open, and a lost one is closed.
  The assertions of `statementExecuted` and `beginTransaction` follow from it.
* One lemma for each call says how it leaves the flags of a sound open connection.
-/

set_option autoImplicit false

namespace Qore.Pool

/-- How a call into the driver ends. -/
inductive Reply
  | ok
  | error
  | aborted
  deriving DecidableEq

/-- The replies of the driver to the calls of one action: to the start of a transaction, to the
statement itself, which may also hand out an open statement, to `autoCommit`, and to the calls for
an `SQLStatement`, with whether each executes it. -/
structure Replies where
  begin : Reply := .ok
  cursor : Bool := false
  call : Reply := .ok
  autoCommit : Reply := .ok
  statement : List (Bool × Reply) := []

/-- The exceptions: one of the driver, or `AUTOCOMMIT-ERROR`. -/
inductive DsError
  | driver
  | autocommit
  deriving DecidableEq

/-- The flags of `qore_ds_private`. -/
structure Datasource where
  inTransaction : Bool
  activeTransaction : Bool
  isOpen : Bool
  autocommit : Bool
  connectionAborted : Bool
  keepLock : Bool
  deriving DecidableEq

namespace Datasource

/-- `DatasourceConfig::get`: a new connection, not open, with autocommit turned off. -/
def config : Datasource := ⟨false, false, false, false, false, false⟩

/-- `close`. -/
def close (ds : Datasource) : Datasource :=
  if ds.isOpen then { ds with isOpen := false, inTransaction := false, activeTransaction := false }
  else ds

/-- `connectionAborted`. -/
def markConnectionAborted (ds : Datasource) : Datasource :=
  close { ds with connectionAborted := true }

/-- `setStatementKeepLock`. -/
def setStatementKeepLock (ds : Datasource) : Datasource :=
  { ds with keepLock := true, inTransaction := true, activeTransaction := true }

/-- `keepLock`: the flag is read and reset. -/
def takeKeepLock (ds : Datasource) : Bool × Datasource :=
  (ds.keepLock, { ds with keepLock := false })

/-- `open`. -/
def openDatasource (r : Reply) (ds : Datasource) : Datasource × Option DsError :=
  if ds.isOpen then (ds, none)
  else
    let ds := { ds with connectionAborted := false }
    match r with
    | .ok => ({ ds with isOpen := true }, none)
    | _ => (ds, some .driver)

/-- A call into the driver. -/
def call (r : Reply) (ds : Datasource) : Datasource × Option DsError :=
  match r with
  | .ok => (ds, none)
  | .error => (ds, some .driver)
  | .aborted => (ds.markConnectionAborted, some .driver)

/-- A call into the driver that executes SQL. -/
def callStatement (d : Replies) (ds : Datasource) : Datasource × Option DsError :=
  call d.call (if d.cursor then ds.setStatementKeepLock else ds)

/-- `autoCommit`. -/
def autoCommit (r : Reply) (ds : Datasource) : Datasource × Option DsError :=
  if ds.autocommit && !ds.connectionAborted then ds.call r else (ds, none)

/-- `select`, `selectRow`, `selectRows` and `describe`, which differ in the call into the driver. -/
def query (d : Replies) (ds : Datasource) : Datasource × Option DsError :=
  let (ds, e) := ds.callStatement d
  let (ds, e') := ds.autoCommit d.autoCommit
  let e := e.or e'
  if ds.inTransaction && !ds.activeTransaction && e.isNone then
    ({ ds with activeTransaction := true }, e)
  else (ds, e)

/-- `statementExecuted`. -/
def statementExecuted (rc : Bool) (ds : Datasource) : Datasource :=
  if !ds.inTransaction then
    if !ds.connectionAborted then { ds with inTransaction := true, activeTransaction := true }
    else ds
  else if !rc && !ds.activeTransaction then { ds with activeTransaction := true }
  else ds

/-- `beginImplicitTransaction`. -/
def beginImplicitTransaction (r : Reply) (ds : Datasource) : Datasource × Option DsError :=
  if ds.autocommit then (ds, some .autocommit) else ds.call r

/-- `beginTransaction`. -/
def beginTransaction (r : Reply) (ds : Datasource) : Datasource × Option DsError :=
  match ds.beginImplicitTransaction r with
  | (ds, none) => ({ ds with inTransaction := true }, none)
  | (ds, some e) => (ds, some e)

/-- The rest of `exec_internal` after the implicit start of a transaction. -/
def execStatement (d : Replies) (ds : Datasource) : Datasource × Option DsError :=
  let (ds, e) := ds.callStatement d
  if ds.connectionAborted then (ds, e)
  else if ds.autocommit then
    let (ds, e') := ds.call d.autoCommit
    (ds, e.or e')
  else (ds.statementExecuted e.isSome, e)

/-- `exec_internal`. -/
def execInternal (d : Replies) (ds : Datasource) : Datasource × Option DsError :=
  if !ds.autocommit && !ds.inTransaction then
    match ds.beginImplicitTransaction d.begin with
    | (ds, none) => ds.execStatement d
    | (ds, some e) => (ds, some e)
  else ds.execStatement d

/-- `commitIntern` and `rollbackIntern`, which differ in the call into the driver. -/
def endIntern (r : Reply) (ds : Datasource) : Datasource × Option DsError :=
  call r { ds with inTransaction := false, activeTransaction := false }

/-- `commit` and `rollback`. -/
def endTransaction (d : Replies) (ds : Datasource) : Datasource × Option DsError :=
  if !ds.inTransaction then
    match ds.beginImplicitTransaction d.begin with
    | (ds, none) => ds.endIntern d.call
    | (ds, some e) => (ds, some e)
  else ds.endIntern d.call

/-- `commit`. -/
def commit : Replies → Datasource → Datasource × Option DsError := endTransaction

/-- `rollback`. -/
def rollback : Replies → Datasource → Datasource × Option DsError := endTransaction

/-- Calls into the driver for a statement, up to the first exception. -/
def statementCalls : List (Bool × Reply) → Datasource → Datasource × Option DsError
  | [], ds => (ds, none)
  | (executes, r) :: calls, ds =>
    let (ds, e) := ds.call r
    let ds := if executes then ds.statementExecuted e.isSome else ds
    match e with
    | none => statementCalls calls ds
    | some e => (ds, some e)

/-- `closeIntern` of a statement: nothing is executed. -/
def closeStatement (d : Replies) (ds : Datasource) : Datasource × Option DsError :=
  ds.statementCalls (d.statement.map fun call => (false, call.2))

/-! ### The flags -/

/-- The flags of a connection of a pool between two calls. -/
structure Sound (ds : Datasource) : Prop where
  autocommit : ds.autocommit = false
  isOpen : ds.inTransaction = true → ds.isOpen = true
  closed : ds.connectionAborted = true → ds.isOpen = false
  active : ds.activeTransaction = true → ds.inTransaction = true

variable {ds ds' : Datasource} {e : Option DsError} {d : Replies} {r : Reply}

theorem Sound.config : Sound config := by
  constructor <;> simp [Datasource.config]

/-- A closed connection is in no transaction. -/
theorem Sound.not_inTransaction (h : Sound ds) (ho : ds.isOpen ≠ true) :
    ds.inTransaction = false :=
  Bool.eq_false_iff.mpr fun hin => ho (h.isOpen hin)

/-- A lost connection is in no transaction. -/
theorem Sound.not_inTransaction_of_aborted (h : Sound ds) (ha : ds.connectionAborted = true) :
    ds.inTransaction = false :=
  h.not_inTransaction (by rw [h.closed ha]; simp)

/-- An open connection is not lost. -/
theorem Sound.not_aborted (h : Sound ds) (ho : ds.isOpen = true) : ds.connectionAborted = false :=
  Bool.eq_false_iff.mpr fun ha => by
    rw [h.closed ha] at ho
    cases ho

theorem Sound.takeKeepLock (h : Sound ds) : Sound ds.takeKeepLock.2 :=
  ⟨h.autocommit, h.isOpen, h.closed, h.active⟩

/-- A connection is opened: it is open without an exception, and its transaction state stays. -/
theorem openDatasource_spec (h : Sound ds) (hrun : ds.openDatasource r = (ds', e)) :
    Sound ds' ∧ ds'.inTransaction = ds.inTransaction ∧ ds'.keepLock = ds.keepLock ∧
      (e = none → ds'.isOpen = true) ∧ (e ≠ none → ds'.inTransaction = false) := by
  rw [openDatasource] at hrun
  split at hrun
  · rename_i ho
    cases hrun
    exact ⟨h, rfl, rfl, fun _ => ho, fun hne => absurd rfl hne⟩
  · rename_i ho
    have hnot := h.not_inTransaction ho
    cases r with
    | ok =>
      cases hrun
      exact ⟨⟨h.autocommit, fun _ => rfl, by simp, h.active⟩, rfl, rfl, fun _ => rfl,
        fun hne => absurd rfl hne⟩
    | error =>
      cases hrun
      exact ⟨⟨h.autocommit, h.isOpen, by simp, h.active⟩, rfl, rfl, by simp, fun _ => hnot⟩
    | aborted =>
      cases hrun
      exact ⟨⟨h.autocommit, h.isOpen, by simp, h.active⟩, rfl, rfl, by simp, fun _ => hnot⟩

/-- The connection after it was lost. -/
def lost (ds : Datasource) : Datasource :=
  { ds with
    connectionAborted := true, isOpen := false, inTransaction := false, activeTransaction := false }

theorem Sound.lost (h : Sound ds) : Sound ds.lost :=
  ⟨h.autocommit, by simp [Datasource.lost], fun _ => rfl, by simp [Datasource.lost]⟩

theorem markConnectionAborted_eq (h : Sound ds) : ds.markConnectionAborted = ds.lost := by
  rw [markConnectionAborted, close]
  split
  · rfl
  · rename_i ho
    have hin := h.not_inTransaction ho
    have hact : ds.activeTransaction = false :=
      Bool.eq_false_iff.mpr fun ha => by rw [h.active ha] at hin; cases hin
    have hopen : ds.isOpen = false := Bool.eq_false_iff.mpr ho
    rw [lost, hin, hact, hopen]

/-- A call into the driver leaves the connection as it is, or the connection is lost. -/
theorem call_spec (h : Sound ds) (hrun : ds.call r = (ds', e)) :
    (ds' = ds ∧ (e = none ↔ r = .ok) ∧ r ≠ .aborted) ∨ (ds' = ds.lost ∧ e ≠ none) := by
  cases r with
  | ok =>
    cases hrun
    exact .inl ⟨rfl, by simp, by simp⟩
  | error =>
    cases hrun
    exact .inl ⟨rfl, by simp, by simp⟩
  | aborted =>
    cases hrun
    exact .inr ⟨markConnectionAborted_eq h, by simp⟩

/-- The connection after the driver has executed SQL. -/
def executed (d : Replies) (ds : Datasource) : Datasource :=
  if d.cursor then ds.setStatementKeepLock else ds

/-- A statement that stays open is the only way into a transaction here. -/
theorem executed_spec (h : Sound ds) (ho : ds.isOpen = true) (hk : ds.keepLock = false) :
    Sound (ds.executed d) ∧ (ds.executed d).isOpen = true ∧
      ((ds.executed d).inTransaction = true ↔
        ds.inTransaction = true ∨ (ds.executed d).keepLock = true) := by
  rw [executed]
  split
  · exact ⟨⟨h.autocommit, fun _ => ho, h.closed, fun _ => rfl⟩, ho, by simp [setStatementKeepLock]⟩
  · exact ⟨h, ho, by simp [hk]⟩

/-- The transaction state after a call that does not change it itself: the connection is in a
transaction when it was in one or when a statement stays open, unless it was lost. -/
def Kept (ds ds' : Datasource) : Prop :=
  Sound ds' ∧ (ds'.connectionAborted = true ∨
    (ds'.inTransaction = true ↔ ds.inTransaction = true ∨ ds'.keepLock = true))

theorem kept_call (h : Sound ds) (hk : ds.keepLock = false)
    (hrun : ds.call r = (ds', e)) : Kept ds ds' := by
  rcases call_spec h hrun with ⟨rfl, -⟩ | ⟨rfl, -⟩
  · exact ⟨h, .inr (by simp [hk])⟩
  · exact ⟨h.lost, .inl rfl⟩

/-- `autoCommit` does nothing on a connection of a pool. -/
theorem autoCommit_eq (h : Sound ds) : ds.autoCommit r = (ds, none) := by
  rw [autoCommit, h.autocommit]
  rfl

theorem kept_query (h : Sound ds) (ho : ds.isOpen = true) (hk : ds.keepLock = false)
    (hrun : ds.query d = (ds', e)) : Kept ds ds' := by
  obtain ⟨hs, hos, hin⟩ := executed_spec (d := d) h ho hk
  obtain ⟨ds₁, e₁, hcall⟩ : ∃ ds₁ e₁, ds.callStatement d = (ds₁, e₁) := ⟨_, _, rfl⟩
  have hspec := call_spec hs hcall
  have hs₁ : Sound ds₁ := by
    rcases hspec with ⟨rfl, -⟩ | ⟨rfl, -⟩
    · exact hs
    · exact hs.lost
  have hkept : Kept ds ds₁ := by
    rcases hspec with ⟨rfl, -⟩ | ⟨rfl, -⟩
    · exact ⟨hs, .inr hin⟩
    · exact ⟨hs.lost, .inl rfl⟩
  simp only [query, hcall, autoCommit_eq hs₁] at hrun
  split at hrun
  · rename_i hact
    cases hrun
    have hin₁ : ds₁.inTransaction = true := by
      simp only [Bool.and_eq_true] at hact
      exact hact.1.1
    exact ⟨⟨hs₁.autocommit, hs₁.isOpen, hs₁.closed, fun _ => hin₁⟩, hkept.2⟩
  · cases hrun
    exact hkept

theorem beginImplicitTransaction_eq (h : Sound ds) : ds.beginImplicitTransaction r = ds.call r := by
  rw [beginImplicitTransaction, h.autocommit]
  rfl

/-- A connection that is not lost is in a transaction after `beginTransaction` when it was in one
or when there was no exception. -/
theorem beginTransaction_spec (h : Sound ds) (ho : ds.isOpen = true)
    (hrun : ds.beginTransaction r = (ds', e)) :
    Sound ds' ∧ (ds'.connectionAborted = true ∨
      (ds'.inTransaction = true ↔ ds.inTransaction = true ∨ e = none)) := by
  obtain ⟨ds₁, e₁, hcall⟩ : ∃ ds₁ e₁, ds.call r = (ds₁, e₁) := ⟨_, _, rfl⟩
  simp only [beginTransaction, beginImplicitTransaction_eq h, hcall] at hrun
  rcases call_spec h hcall with ⟨rfl, -⟩ | ⟨rfl, he⟩
  · cases e₁ with
    | none =>
      cases hrun
      exact ⟨⟨h.autocommit, fun _ => ho, h.closed, fun _ => rfl⟩, .inr (by simp)⟩
    | some x =>
      cases hrun
      exact ⟨h, .inr (by simp)⟩
  · cases e₁ with
    | none => exact absurd rfl he
    | some x =>
      cases hrun
      exact ⟨h.lost, .inl rfl⟩

theorem beginTransaction_keep (h : Sound ds) (ho : ds.isOpen = true)
    (hrun : ds.beginTransaction r = (ds', e)) : Sound ds' ∧ ds'.keepLock = ds.keepLock := by
  refine ⟨(beginTransaction_spec h ho hrun).1, ?_⟩
  obtain ⟨ds₁, e₁, hcall⟩ : ∃ ds₁ e₁, ds.call r = (ds₁, e₁) := ⟨_, _, rfl⟩
  simp only [beginTransaction, beginImplicitTransaction_eq h, hcall] at hrun
  have hk : ds₁.keepLock = ds.keepLock := by
    rcases call_spec h hcall with ⟨rfl, -⟩ | ⟨rfl, -⟩ <;> rfl
  cases e₁ with
  | none =>
    cases hrun
    exact hk
  | some x =>
    cases hrun
    exact hk

/-- A connection that is not lost is in a transaction after a statement was executed. -/
theorem execStatement_spec (h : Sound ds) (ho : ds.isOpen = true) (hk : ds.keepLock = false)
    (hrun : ds.execStatement d = (ds', e)) :
    Sound ds' ∧ (ds'.connectionAborted = true ∨ ds'.inTransaction = true) := by
  obtain ⟨hs, hos, -⟩ := executed_spec (d := d) h ho hk
  obtain ⟨ds₁, e₁, hcall⟩ : ∃ ds₁ e₁, ds.callStatement d = (ds₁, e₁) := ⟨_, _, rfl⟩
  simp only [execStatement, hcall] at hrun
  rcases call_spec hs hcall with ⟨rfl, -⟩ | ⟨rfl, -⟩
  · have hna := hs.not_aborted hos
    change (if (ds.executed d).connectionAborted = true then _ else _) = (ds', e) at hrun
    rw [hna, hs.autocommit] at hrun
    cases hrun
    rw [statementExecuted]
    split
    · rw [if_pos (by rw [hna]; rfl)]
      exact ⟨⟨hs.autocommit, fun _ => hos, hs.closed, fun _ => rfl⟩, .inr rfl⟩
    · rename_i hin
      have hin : (ds.executed d).inTransaction = true := by simpa using hin
      split
      · exact ⟨⟨hs.autocommit, hs.isOpen, hs.closed, fun _ => hin⟩, .inr hin⟩
      · exact ⟨hs, .inr hin⟩
  · cases hrun
    exact ⟨hs.lost, .inl rfl⟩

/-- The same for `exec_internal`, unless the implicit start of the transaction fails with the
connection intact. -/
theorem execInternal_spec (h : Sound ds) (ho : ds.isOpen = true) (hk : ds.keepLock = false)
    (hrun : ds.execInternal d = (ds', e)) :
    Sound ds' ∧ (ds'.connectionAborted = true ∨ ds'.inTransaction = true ∨
      (ds.inTransaction = false ∧ d.begin = .error ∧ ds' = ds)) := by
  obtain ⟨ds₁, e₁, hcall⟩ : ∃ ds₁ e₁, ds.call d.begin = (ds₁, e₁) := ⟨_, _, rfl⟩
  rw [execInternal, h.autocommit] at hrun
  split at hrun
  · rename_i hin
    have hin : ds.inTransaction = false := by simpa using hin
    -- the implicit start comes first
    rw [beginImplicitTransaction_eq h, hcall] at hrun
    rcases call_spec h hcall with ⟨rfl, hok, hna⟩ | ⟨rfl, he⟩
    · cases e₁ with
      | none =>
        obtain ⟨hs, hor⟩ := execStatement_spec h ho hk hrun
        exact ⟨hs, hor.imp_right .inl⟩
      | some x =>
        -- it fails, and the connection is as before
        cases hrun
        have hbegin : d.begin = .error := by
          cases hb : d.begin with
          | ok => exact absurd (hok.mpr hb) (by simp)
          | error => rfl
          | aborted => exact absurd hb hna
        exact ⟨h, .inr (.inr ⟨hin, hbegin, rfl⟩)⟩
    · cases e₁ with
      | none => exact absurd rfl he
      | some x =>
        cases hrun
        exact ⟨h.lost, .inl rfl⟩
  · obtain ⟨hs, hor⟩ := execStatement_spec h ho hk hrun
    exact ⟨hs, hor.imp_right .inl⟩

theorem endIntern_spec (h : Sound ds) (hrun : ds.endIntern r = (ds', e)) :
    Sound ds' ∧ ds'.inTransaction = false ∧ ds'.keepLock = ds.keepLock := by
  have hs : Sound { ds with inTransaction := false, activeTransaction := false } :=
    ⟨h.autocommit, by simp, h.closed, by simp⟩
  rcases call_spec hs hrun with ⟨rfl, -⟩ | ⟨rfl, -⟩
  · exact ⟨hs, rfl, rfl⟩
  · exact ⟨hs.lost, rfl, rfl⟩

/-- A connection is in no transaction after its end, however the driver replies. -/
theorem endTransaction_spec (h : Sound ds) (hrun : ds.endTransaction d = (ds', e)) :
    Sound ds' ∧ ds'.inTransaction = false ∧ ds'.keepLock = ds.keepLock := by
  rw [endTransaction] at hrun
  split at hrun
  · rename_i hin
    have hin : ds.inTransaction = false := by simpa using hin
    obtain ⟨ds₁, e₁, hcall⟩ : ∃ ds₁ e₁, ds.call d.begin = (ds₁, e₁) := ⟨_, _, rfl⟩
    rw [beginImplicitTransaction_eq h, hcall] at hrun
    rcases call_spec h hcall with ⟨rfl, -⟩ | ⟨rfl, he⟩
    · cases e₁ with
      | none => exact endIntern_spec h hrun
      | some x =>
        cases hrun
        exact ⟨h, hin, rfl⟩
    · cases e₁ with
      | none => exact absurd rfl he
      | some x =>
        cases hrun
        exact ⟨h.lost, rfl, rfl⟩
  · exact endIntern_spec h hrun

theorem statementExecuted_spec (rc : Bool) (h : Sound ds)
    (ho : ds.connectionAborted = false → ds.isOpen = true) :
    Sound (ds.statementExecuted rc) ∧ (ds.statementExecuted rc).isOpen = ds.isOpen ∧
      (ds.statementExecuted rc).keepLock = ds.keepLock := by
  rw [statementExecuted]
  split
  · split
    · rename_i hna
      have hopen := ho (by simpa using hna)
      exact ⟨⟨h.autocommit, fun _ => hopen, h.closed, fun _ => rfl⟩, rfl, rfl⟩
    · exact ⟨h, rfl, rfl⟩
  · rename_i hin
    have hin : ds.inTransaction = true := by simpa using hin
    split
    · exact ⟨⟨h.autocommit, h.isOpen, h.closed, fun _ => hin⟩, rfl, rfl⟩
    · exact ⟨h, rfl, rfl⟩

/-- Calls for a statement start a transaction only when one of them executes it. -/
theorem statementCalls_spec {calls : List (Bool × Reply)} (h : Sound ds) (ho : ds.isOpen = true)
    (hrun : ds.statementCalls calls = (ds', e)) :
    Sound ds' ∧ ds'.keepLock = ds.keepLock ∧
      ((∀ c ∈ calls, c.1 = false) → ds'.inTransaction = true → ds.inTransaction = true) := by
  induction calls generalizing ds with
  | nil =>
    cases hrun
    exact ⟨h, rfl, fun _ => id⟩
  | cons c calls ih =>
    obtain ⟨executes, r⟩ := c
    obtain ⟨ds₁, e₁, hcall⟩ : ∃ ds₁ e₁, ds.call r = (ds₁, e₁) := ⟨_, _, rfl⟩
    rw [statementCalls, hcall] at hrun
    dsimp only at hrun
    rcases call_spec h hcall with ⟨rfl, -⟩ | ⟨rfl, he⟩
    · obtain ⟨hs, hos, hk⟩ := statementExecuted_spec e₁.isSome h fun _ => ho
      obtain ⟨ds₂, hds₂⟩ : ∃ ds₂, ds₂ = if executes then ds₁.statementExecuted e₁.isSome else ds₁ :=
        ⟨_, rfl⟩
      have hspec : Sound ds₂ ∧ ds₂.isOpen = true ∧ ds₂.keepLock = ds₁.keepLock ∧
          (executes = false → ds₂ = ds₁) := by
        rw [hds₂]
        cases executes
        · exact ⟨h, ho, rfl, fun _ => rfl⟩
        · exact ⟨hs, hos.trans ho, hk, fun h => by cases h⟩
      rw [← hds₂] at hrun
      cases e₁ with
      | none =>
        obtain ⟨hs', hk', hin⟩ := ih hspec.1 hspec.2.1 hrun
        refine ⟨hs', hk'.trans hspec.2.2.1, fun hcalls hin' => ?_⟩
        have hsame := hspec.2.2.2 (hcalls _ List.mem_cons_self)
        exact hsame ▸ hin (fun c hc => hcalls c (List.mem_cons_of_mem _ hc)) hin'
      | some x =>
        cases hrun
        refine ⟨hspec.1, hspec.2.2.1, fun hcalls hin => ?_⟩
        exact hspec.2.2.2 (hcalls _ List.mem_cons_self) ▸ hin
    · -- the connection is lost: the call raises, and no other one is made
      have hlost := statementExecuted_spec e₁.isSome h.lost fun h => by cases h
      obtain ⟨x, rfl⟩ := Option.ne_none_iff_exists'.mp he
      cases executes
      · cases hrun
        exact ⟨h.lost, rfl, fun _ h => by cases h⟩
      · cases hrun
        exact ⟨hlost.1, hlost.2.2, fun hcalls => by cases hcalls _ List.mem_cons_self⟩

theorem closeStatement_spec (h : Sound ds) (ho : ds.isOpen = true)
    (hrun : ds.closeStatement d = (ds', e)) :
    Sound ds' ∧ ds'.keepLock = ds.keepLock ∧ (ds'.inTransaction = true → ds.inTransaction = true) := by
  obtain ⟨hs, hk, hin⟩ := statementCalls_spec h ho hrun
  refine ⟨hs, hk, hin fun c hc => ?_⟩
  obtain ⟨call, -, rfl⟩ := List.mem_map.mp hc
  rfl

end Datasource

end Qore.Pool
