import Oath.Core.Policy
import Oath.Library.LockedTransactions
import Oath.Library.Table

/-! Invitations that are accepted and revoked at the same time, statement by statement. The expiry is
compared with the clock as an accept reads it at its start. Each of them is used at most once: accepted
or revoked, whatever the order of the statements of all the requests. -/

namespace Oath.Registry
open Core

/-! ## Tables -/

structure InvitationRecord where
  organization : String
  email : String
  role : String
  expiresAt : ℤ
deriving DecidableEq, Repr

structure InvitationRow extends InvitationRecord where
  tokenHash : String
  acceptedAt : Option ℤ
  revokedAt : Option ℤ
deriving DecidableEq, Repr

structure MemberRow where
  organization : String
  subject : String
  email : String
  role : String
  createdAt : ℤ
deriving DecidableEq, Repr

def MemberRow.key (row : MemberRow) : String × String := (row.organization, row.subject)

structure Memberships where
  invitations : Table InvitationRow.tokenHash
  members : Table MemberRow.key

/-- Neither accepted nor revoked. -/
def InvitationRow.isPending (row : InvitationRow) : Bool :=
  row.acceptedAt.isNone && row.revokedAt.isNone

inductive MembershipLock
  | invitation (tokenHash : String)
  | member (organization subject : String)
deriving DecidableEq, Repr

namespace Memberships

def invitation (db : Memberships) (tokenHash : String) : Option InvitationRow :=
  db.invitations.find? tokenHash

/-- The invitation when it is pending and meets the condition. -/
def pendingInvitation (db : Memberships) (tokenHash : String) (p : InvitationRow → Bool) :
    Option InvitationRow :=
  (db.invitation tokenHash).filter fun row => row.isPending && p row

/-- `INSERT … ON CONFLICT (organization,subject) DO UPDATE SET email, role`. -/
def upsertMember (db : Memberships) (row : MemberRow) : Memberships :=
  let createdAt := match db.members.find? row.key with
    | some old => old.createdAt
    | none => row.createdAt
  { db with members := db.members.upsert { row with createdAt } }

def withAcceptedAt (now : ℤ) (row : InvitationRow) : InvitationRow :=
  { row with acceptedAt := some now }

def withRevokedAt (now : ℤ) (row : InvitationRow) : InvitationRow :=
  { row with revokedAt := some now }

theorem withAcceptedAt_key (now : ℤ) (row : InvitationRow) :
    (withAcceptedAt now row).tokenHash = row.tokenHash := rfl

theorem withRevokedAt_key (now : ℤ) (row : InvitationRow) :
    (withRevokedAt now row).tokenHash = row.tokenHash := rfl

def markAccepted (db : Memberships) (tokenHash : String) (now : ℤ) : Memberships :=
  { db with
    invitations := db.invitations.update (fun row => row.tokenHash = tokenHash)
      (withAcceptedAt now) (withAcceptedAt_key now) }

def markRevoked (db : Memberships) (tokenHash : String) (now : ℤ) : Memberships :=
  { db with
    invitations := db.invitations.update (fun row => row.tokenHash = tokenHash)
      (withRevokedAt now) (withRevokedAt_key now) }

end Memberships

/-! ## Statements -/

namespace MembershipSql

/-- The pending invitation that expires after `now`, `FOR UPDATE`. -/
def selectPending (tokenHash : String) (now : ℤ) :
    Statement Memberships MembershipLock (Option InvitationRow) where
  locks db :=
    if (db.pendingInvitation tokenHash fun row => now < row.expiresAt).isSome then
      [.invitation tokenHash]
    else []
  run db := .ok (db.pendingInvitation tokenHash fun row => now < row.expiresAt, id)

def upsertMember (row : MemberRow) : Statement Memberships MembershipLock Unit where
  locks _ := [.member row.organization row.subject]
  run _ := .ok ((), fun db => db.upsertMember row)

def markAccepted (tokenHash : String) (now : ℤ) : Statement Memberships MembershipLock Unit where
  locks _ := [.invitation tokenHash]
  run _ := .ok ((), fun db => db.markAccepted tokenHash now)

/-- The rows that are revoked: one or none. -/
def markRevoked (tokenHash organization : String) (now : ℤ) :
    Statement Memberships MembershipLock ℕ where
  locks db :=
    if (db.pendingInvitation tokenHash fun row => row.organization = organization).isSome then
      [.invitation tokenHash]
    else []
  run db :=
    if (db.pendingInvitation tokenHash fun row => row.organization = organization).isSome then
      .ok (1, fun db => db.markRevoked tokenHash now)
    else .ok (0, id)

end MembershipSql

/-! ## The transactions -/

inductive InvitationAnswer
  | accepted (invitation : Option InvitationRecord)
  | revoked (done : Bool)
deriving DecidableEq, Repr

def revokeInvitation (tokenHash organization : String) :
    Transaction Memberships MembershipLock InvitationAnswer :=
  .clock fun now =>
  .statement (MembershipSql.markRevoked tokenHash organization now) fun rowsAffected =>
  .commit (.revoked (rowsAffected = 1))

def acceptInvitation (tokenHash subject email : String) :
    Transaction Memberships MembershipLock InvitationAnswer :=
  .clock fun now =>
  .statement (MembershipSql.selectPending tokenHash now) fun row =>
  match row with
  | none => .rollback (.ok (.accepted none))
  | some row =>
    let invitation := row.toInvitationRecord
    if !eqIgnoreAsciiCase invitation.email email then
      .rollback (.error "invitation email does not match verified identity")
    else
      .clock fun createdAt =>
      .statement (MembershipSql.upsertMember {
        organization := invitation.organization
        subject
        email
        role := invitation.role
        createdAt }) fun _ =>
      .clock fun acceptedAt =>
      .statement (MembershipSql.markAccepted tokenHash acceptedAt) fun _ =>
      .commit (.accepted (some invitation))

inductive InvitationCall
  | accept (tokenHash subject email : String)
  | revoke (tokenHash organization : String)
deriving DecidableEq, Repr

def InvitationCall.transaction :
    InvitationCall → Transaction Memberships MembershipLock InvitationAnswer
  | accept tokenHash subject email => acceptInvitation tokenHash subject email
  | revoke tokenHash organization => revokeInvitation tokenHash organization

open Memberships

/-! ## Statements on the rows -/

theorem invitation_markAccepted (db : Memberships) (row : MemberRow) (tokenHash : String) (now : ℤ)
    (other : String) : ((db.upsertMember row).markAccepted tokenHash now).invitation other =
      if other = tokenHash then (db.invitation other).map (withAcceptedAt now)
      else db.invitation other :=
  db.invitations.find?_update_key (withAcceptedAt_key now) (fun _ => decide_eq_true_iff) other

theorem invitation_markRevoked (db : Memberships) (tokenHash : String) (now : ℤ) (other : String) :
    (db.markRevoked tokenHash now).invitation other =
      if other = tokenHash then (db.invitation other).map (withRevokedAt now)
      else db.invitation other :=
  db.invitations.find?_update_key (withRevokedAt_key now) (fun _ => decide_eq_true_iff) other

theorem pendingInvitation_eq_some {db : Memberships} {tokenHash : String}
    {p : InvitationRow → Bool} {row : InvitationRow} :
    db.pendingInvitation tokenHash p = some row ↔
      db.invitation tokenHash = some row ∧ row.isPending ∧ p row := by
  rw [pendingInvitation, Option.filter_eq_some_iff, Bool.and_eq_true]

theorem isPending_iff {row : InvitationRow} :
    row.isPending ↔ row.acceptedAt = none ∧ row.revokedAt = none := by
  rw [InvitationRow.isPending, Bool.and_eq_true, Option.isNone_iff_eq_none,
    Option.isNone_iff_eq_none]

/-- One row is locked and revoked, or nothing is done. -/
theorem markRevoked_ok {db : Memberships} {tokenHash organization : String} {now : ℤ} {n : ℕ}
    {write : Memberships → Memberships}
    (h : (MembershipSql.markRevoked tokenHash organization now).run db = .ok (n, write)) :
    (∃ row, db.invitation tokenHash = some row ∧ row.isPending ∧
      (MembershipSql.markRevoked tokenHash organization now).locks db = [.invitation tokenHash] ∧
      n = 1 ∧ write = fun db => db.markRevoked tokenHash now) ∨ n = 0 ∧ write = id := by
  unfold MembershipSql.markRevoked at h ⊢
  dsimp only at h ⊢
  split_ifs at h ⊢ with hfound
  · obtain ⟨rfl, rfl⟩ := Prod.mk.inj (Except.ok.inj h)
    obtain ⟨row, hsome⟩ := Option.isSome_iff_exists.mp hfound
    obtain ⟨hrow, hpending, -⟩ := pendingInvitation_eq_some.mp hsome
    exact Or.inl ⟨row, hrow, hpending, rfl, rfl, rfl⟩
  · obtain ⟨rfl, rfl⟩ := Prod.mk.inj (Except.ok.inj h)
    exact Or.inr ⟨rfl, rfl⟩

theorem selectPending_some {db : Memberships} {tokenHash : String} {now : ℤ}
    {row : InvitationRow} {write : Memberships → Memberships}
    (h : (MembershipSql.selectPending tokenHash now).run db = .ok (some row, write)) :
    db.invitation tokenHash = some row ∧ row.isPending ∧ now < row.expiresAt ∧
      (MembershipSql.selectPending tokenHash now).locks db = [.invitation tokenHash] ∧
      write = id := by
  obtain ⟨hsome, rfl⟩ := Prod.mk.inj (Except.ok.inj h)
  obtain ⟨hrow, hpending, hlater⟩ := pendingInvitation_eq_some.mp hsome
  refine ⟨hrow, hpending, of_decide_eq_true hlater, ?_, rfl⟩
  unfold MembershipSql.selectPending
  dsimp only
  rw [hsome]
  rfl

/-! ## What a commit may do -/

/-- The answer says that the call has used the invitation. -/
def Uses (tokenHash : String) : InvitationCall → InvitationAnswer → Prop
  | .accept used _ _, .accepted (some _) => used = tokenHash
  | .revoke used _, .revoked true => used = tokenHash
  | _, _ => False

/-- What was used before the start is as it was. -/
def UsedKept (db₀ db : Memberships) : Prop :=
  ∀ tokenHash row, db₀.invitation tokenHash = some row → row.isPending = false →
    db.invitation tokenHash = some row

/-- A commit of a call: invitations that are used or not locked stay, what is used was pending, and
only an accepted invitation changes the members. -/
structure CallCommit (call : InvitationCall) (a : InvitationAnswer) (held : Set MembershipLock)
    (db db' : Memberships) : Prop where
  kept (tokenHash : String) (row : InvitationRow) (hrow : db.invitation tokenHash = some row)
    (h : row.isPending = false ∨ MembershipLock.invitation tokenHash ∉ held) :
    db'.invitation tokenHash = some row
  pending (tokenHash : String) (h : Uses tokenHash call a) :
    ∃ row, db.invitation tokenHash = some row ∧ row.isPending
  members (h : ∀ invitation, a ≠ .accepted (some invitation)) : db'.members = db.members

/-- What is known of an accepted invitation: it was still pending when the run began, the identity's
email is its own, and it expires after the time the accept read first. -/
structure AcceptedBy (db₀ db : Memberships) (tokenHash email : String)
    (invitation : InvitationRecord) (times : List ℕ) : Prop where
  row : ∃ row, db.invitation tokenHash = some row ∧ row.toInvitationRecord = invitation ∧
    row.acceptedAt.isSome ∧ row.revokedAt = none
  fresh (row : InvitationRow) (h : db₀.invitation tokenHash = some row) : row.isPending
  email : eqIgnoreAsciiCase invitation.email email
  clock : ∃ now later, times = now :: later ∧ (now : ℤ) < invitation.expiresAt

structure KnownAfter (db₀ : Memberships) (call : InvitationCall) (times : List ℕ)
    (a : InvitationAnswer) (db : Memberships) : Prop where
  used (tokenHash : String) (h : Uses tokenHash call a) :
    ∃ row, db.invitation tokenHash = some row ∧ row.isPending = false
  accepted (tokenHash subject email : String) (invitation : InvitationRecord)
    (hcall : call = .accept tokenHash subject email) (h : a = .accepted (some invitation)) :
    AcceptedBy db₀ db tokenHash email invitation times

variable {ι : Type}

def singleUse (calls : ι → InvitationCall) (db₀ : Memberships) :
    Transaction.Discipline ι Memberships MembershipLock InvitationAnswer where
  good := UsedKept db₀
  may i := CallCommit (calls i)
  after i := KnownAfter db₀ (calls i)

section Rules
variable {calls : ι → InvitationCall} {db₀ db db' : Memberships} {held : Set MembershipLock}
  {call : InvitationCall} {a : InvitationAnswer} {tokenHash : String} {row row' : InvitationRow}

theorem CallCommit.usedKept (h : CallCommit call a held db db') (hgood : UsedKept db₀ db) :
    UsedKept db₀ db' := by
  intro tokenHash row hrow hused
  exact h.kept tokenHash row (hgood tokenHash row hrow hused) (Or.inl hused)

/-- A row whose lock is held is not changed by others. -/
theorem stable_row (h : MembershipLock.invitation tokenHash ∈ held) :
    (singleUse calls db₀).Stable held fun db => db.invitation tokenHash = some row := by
  intro i a others db db' hdisjoint _ hmay hrow
  refine hmay.kept tokenHash row hrow (Or.inr fun hmem => ?_)
  exact Set.disjoint_left.mp hdisjoint hmem h

theorem stable_after (i : ι) (times : List ℕ) (a : InvitationAnswer) :
    (singleUse calls db₀).Stable ∅ ((singleUse calls db₀).after i times a) := by
  intro j b others db db' _ _ hmay h
  refine ⟨fun tokenHash huses => ?_, fun tokenHash subject email invitation hcall ha => ?_⟩
  · obtain ⟨row, hrow, hused⟩ := h.used tokenHash huses
    exact ⟨row, hmay.kept tokenHash row hrow (Or.inl hused), hused⟩
  · have haccepted := h.accepted tokenHash subject email invitation hcall ha
    obtain ⟨row, hrow, hrecord, hat, hrevoked⟩ := haccepted.row
    have hused : row.isPending = false := by
      rw [Bool.eq_false_iff, ne_eq, isPending_iff]
      intro hpending
      rw [hpending.1] at hat
      cases hat
    have hkept := hmay.kept tokenHash row hrow (Or.inl hused)
    exact { haccepted with row := ⟨row, hkept, hrecord, hat, hrevoked⟩ }

/-- A locked pending row is replaced. -/
theorem kept_of_replaced (hlock : MembershipLock.invitation tokenHash ∈ held)
    (hrow : db.invitation tokenHash = some row) (hpending : row.isPending)
    (hothers : ∀ other, other ≠ tokenHash → db'.invitation other = db.invitation other)
    (other : String) (row' : InvitationRow) (hother : db.invitation other = some row')
    (h : row'.isPending = false ∨ MembershipLock.invitation other ∉ held) :
    db'.invitation other = some row' := by
  by_cases hsame : other = tokenHash
  · rw [hsame] at hother h
    rcases h with hused | hfree
    · rw [hrow] at hother
      obtain rfl := Option.some.inj hother
      rw [hpending] at hused
      cases hused
    · exact absurd hlock hfree
  · rw [hothers other hsame]
    exact hother

theorem UsedKept.fresh (h : UsedKept db₀ db) (hrow : db.invitation tokenHash = some row)
    (hpending : row.isPending) (old : InvitationRow)
    (hold : db₀.invitation tokenHash = some old) : old.isPending := by
  by_contra hused
  have hkept := h tokenHash old hold (Bool.eq_false_iff.mpr hused)
  rw [hrow] at hkept
  obtain rfl := Option.some.inj hkept
  exact hused hpending

/-! ## What the transactions do -/

variable {i : ι} {times : List ℕ} {A : Memberships → Prop}

/-- A commit that uses nothing and changes nothing. -/
theorem keeps_nothing (hno : ∀ tokenHash, ¬ Uses tokenHash (calls i) a)
    (hanswer : ∀ invitation, a ≠ .accepted (some invitation)) :
    (singleUse calls db₀).Keeps i (.commit a) times id held A := by
  intro db hgood _
  have hcommit : CallCommit (calls i) a held db db := {
    kept := fun _ _ hrow _ => hrow
    pending := fun tokenHash h => absurd h (hno tokenHash)
    members := fun _ => rfl }
  refine ⟨hcommit, hgood, fun tokenHash h => absurd h (hno tokenHash), ?_⟩
  intro _ _ _ invitation _ ha
  exact absurd ha (hanswer invitation)

theorem commit_revoked {organization : String} {now : ℤ}
    (hcall : calls i = .revoke tokenHash organization)
    (hlock : MembershipLock.invitation tokenHash ∈ held) (hpending : row.isPending) :
    (singleUse calls db₀).Keeps i (.commit (.revoked true)) times
      (fun db => db.markRevoked tokenHash now) held fun db => db.invitation tokenHash = some row := by
  intro db hgood hrow
  have hcommit : CallCommit (calls i) (.revoked true) held db (db.markRevoked tokenHash now) := by
    refine ⟨kept_of_replaced hlock hrow hpending fun other hne => ?_, fun other huses => ?_,
      fun _ => rfl⟩
    · rw [invitation_markRevoked, if_neg hne]
    · rw [hcall] at huses
      obtain rfl : tokenHash = other := huses
      exact ⟨row, hrow, hpending⟩
  refine ⟨hcommit, hcommit.usedKept hgood, fun other huses => ?_, ?_⟩
  · rw [hcall] at huses
    obtain rfl : tokenHash = other := huses
    refine ⟨withRevokedAt now row, ?_, ?_⟩
    · rw [invitation_markRevoked, if_pos rfl, hrow]
      rfl
    · rw [Bool.eq_false_iff, ne_eq, isPending_iff]
      intro hnone
      cases hnone.2
  · intro _ _ _ _ _ ha
    cases ha

theorem keeps_revokeInvitation {organization : String}
    (hcall : calls i = .revoke tokenHash organization) :
    (singleUse calls db₀).Keeps i (revokeInvitation tokenHash organization) [] id held
      fun _ => True := by
  intro now seen _ _ rowsAffected write hrun
  rcases markRevoked_ok hrun with ⟨row, hrow, hpending, hlocks, rfl, rfl⟩ | ⟨rfl, rfl⟩
  · have hlock : MembershipLock.invitation tokenHash ∈ held ∪
        {k | k ∈ (MembershipSql.markRevoked tokenHash organization now).locks (id seen)} := by
      right
      rw [hlocks]
      exact List.mem_singleton_self _
    exact ⟨_, stable_row hlock, hrow, commit_revoked hcall hlock hpending⟩
  · refine ⟨fun _ => True, Transaction.Discipline.stable_true _, trivial, ?_⟩
    refine keeps_nothing (fun tokenHash h => ?_) fun invitation h => ?_
    · rw [hcall] at h
      exact h
    · cases h

theorem commit_accepted {subject email : String} {member : MemberRow} {acceptedAt : ℤ}
    {first : ℕ} {later : List ℕ}
    (hcall : calls i = .accept tokenHash subject email)
    (hlock : MembershipLock.invitation tokenHash ∈ held) (hpending : row.isPending)
    (hemail : eqIgnoreAsciiCase row.email email) (hfirst : (first : ℤ) < row.expiresAt) :
    (singleUse calls db₀).Keeps i (.commit (.accepted (some row.toInvitationRecord)))
      (first :: later) (fun db => (db.upsertMember member).markAccepted tokenHash acceptedAt) held
      fun db => db.invitation tokenHash = some row := by
  intro db hgood hrow
  have hcommit : CallCommit (calls i) (.accepted (some row.toInvitationRecord)) held db
      ((db.upsertMember member).markAccepted tokenHash acceptedAt) := by
    refine ⟨kept_of_replaced hlock hrow hpending fun other hne => ?_, fun other huses => ?_,
      fun hno => absurd rfl (hno row.toInvitationRecord)⟩
    · rw [invitation_markAccepted, if_neg hne]
    · rw [hcall] at huses
      obtain rfl : tokenHash = other := huses
      exact ⟨row, hrow, hpending⟩
  have haccepted : ((db.upsertMember member).markAccepted tokenHash acceptedAt).invitation tokenHash =
      some (withAcceptedAt acceptedAt row) := by
    rw [invitation_markAccepted, if_pos rfl, hrow]
    rfl
  refine ⟨hcommit, hcommit.usedKept hgood, fun other huses => ?_, ?_⟩
  · rw [hcall] at huses
    obtain rfl : tokenHash = other := huses
    refine ⟨withAcceptedAt acceptedAt row, haccepted, ?_⟩
    rw [Bool.eq_false_iff, ne_eq, isPending_iff]
    intro hnone
    cases hnone.1
  · intro other otherSubject otherEmail invitation hsame ha
    rw [hcall] at hsame
    obtain ⟨rfl, rfl, rfl⟩ := InvitationCall.accept.inj hsame
    obtain rfl := Option.some.inj (InvitationAnswer.accepted.inj ha)
    exact {
      row := ⟨withAcceptedAt acceptedAt row, haccepted, rfl, rfl, (isPending_iff.mp hpending).2⟩
      fresh := hgood.fresh hrow hpending
      email := hemail
      clock := ⟨first, later, rfl, hfirst⟩ }

theorem keeps_acceptInvitation {subject email : String}
    (hcall : calls i = .accept tokenHash subject email) :
    (singleUse calls db₀).Keeps i (acceptInvitation tokenHash subject email) [] id held
      fun _ => True := by
  intro now seen _ _ found write hrun
  cases found with
  | none => exact ⟨fun _ => True, Transaction.Discipline.stable_true _, trivial, trivial⟩
  | some row =>
    obtain ⟨hrow, hpending, hlater, hlocks, rfl⟩ := selectPending_some hrun
    have hlock : MembershipLock.invitation tokenHash ∈ held ∪
        {k | k ∈ (MembershipSql.selectPending tokenHash now).locks (id seen)} := by
      right
      rw [hlocks]
      exact List.mem_singleton_self _
    refine ⟨_, stable_row hlock, hrow, ?_⟩
    dsimp only
    split_ifs with hemail
    · trivial
    · have hmatches : eqIgnoreAsciiCase row.email email := by
        simpa using hemail
      intro createdAt
      refine Transaction.Discipline.keeps_statement (stable_row hlock) ?_
      intro db b write hrun held' hsub acceptedAt
      obtain ⟨-, rfl⟩ := Prod.mk.inj (Except.ok.inj hrun)
      refine Transaction.Discipline.keeps_statement (stable_row (hsub hlock)) ?_
      intro db b write hrun held'' hsub'
      obtain ⟨-, rfl⟩ := Prod.mk.inj (Except.ok.inj hrun)
      exact commit_accepted hcall (hsub' (hsub hlock)) hpending hmatches hlater

/-! ## Any order of the steps -/

variable [DecidableEq ι] {time : ℕ} {events : List (ι × Transaction.Action)}
  {s s' : Threads.State ι (Transaction.Server ι Memberships MembershipLock)
    (Transaction.Session Memberships MembershipLock InvitationAnswer)}

def requests (calls : ι → InvitationCall) (db : Memberships) (time : ℕ) :
    Threads.State ι (Transaction.Server ι Memberships MembershipLock)
      (Transaction.Session Memberships MembershipLock InvitationAnswer) :=
  Transaction.start db time fun i => (calls i).transaction

variable (calls time) in
theorem requests_hold : (singleUse calls db₀).good (requests calls db₀ time).shared.committed ∧
    ∀ i, (singleUse calls db₀).Holds i (requests calls db₀ time).shared
      ((requests calls db₀ time).locals i) := by
  refine Transaction.Discipline.start_holds time (fun _ _ hrow _ => hrow) fun i held => ?_
  cases hcall : calls i with
  | accept tokenHash subject email => exact keeps_acceptInvitation hcall
  | revoke tokenHash organization => exact keeps_revokeInvitation hcall

/-- Two calls that both used the invitation. -/
def BothUse (calls : ι → InvitationCall) (i : ι) (a : InvitationAnswer) (j : ι)
    (b : InvitationAnswer) : Prop :=
  ∃ tokenHash, Uses tokenHash (calls i) a ∧ Uses tokenHash (calls j) b

theorem not_bothUse (hrun : Transaction.sessions.run (requests calls db₀ time) events = some s')
    {i j : ι} {a b : InvitationAnswer} (hne : i ≠ j)
    (hi : Transaction.Discipline.Committed a (s'.locals i))
    (hj : Transaction.Discipline.Committed b (s'.locals j)) : ¬ BothUse calls i a j b := by
  refine Transaction.Discipline.run_exclusive (d := singleUse calls db₀)
    stable_after (BothUse calls) ?_ ?_ (requests_hold calls time) ?_ hrun hne hi hj
  · rintro i a j b ⟨tokenHash, hi, hj⟩
    exact ⟨tokenHash, hj, hi⟩
  · rintro i a j b times held db db' ⟨tokenHash, hi, hj⟩ hafter hmay
    obtain ⟨row, hrow, hused⟩ := hafter.used tokenHash hi
    obtain ⟨row', hrow', hpending⟩ := hmay.pending tokenHash hj
    rw [hrow] at hrow'
    obtain rfl := Option.some.inj hrow'
    rw [hpending] at hused
    cases hused
  · rintro i a ⟨times, answer, hended⟩
    cases hended

/-- Only the commit of an accepted invitation changes the members. -/
theorem members_of_fire (hs : (singleUse calls db₀).good s.shared.committed ∧
    ∀ i, (singleUse calls db₀).Holds i s.shared (s.locals i)) {i : ι} {fault : Fault}
    (hfire : Transaction.sessions.fire s (i, .next fault) = some s')
    (hrefused : ∀ invitation,
      ¬ Transaction.Discipline.Committed (.accepted (some invitation)) (s'.locals i)) :
    s'.shared.committed.members = s.shared.committed.members := by
  obtain ⟨server, session, hstep, rfl⟩ := Threads.fire_eq_some.mp hfire
  have hmoves := Transaction.step_moves hstep
  rcases Transaction.Discipline.committed_of_moves hmoves with hsame | ⟨a, hcommitted⟩
  · exact congrArg Memberships.members hsame
  · obtain ⟨held, hmay⟩ := (hs.2 i).may hs.1 hmoves hcommitted
    refine hmay.members fun invitation ha => hrefused invitation ?_
    dsimp only
    rw [Function.update_self, ← ha]
    exact hcommitted

/-- The steps of a call in a run leave the members as they are. -/
def LeavesMembers (start : Threads.State ι (Transaction.Server ι Memberships MembershipLock)
    (Transaction.Session Memberships MembershipLock InvitationAnswer))
    (events : List (ι × Transaction.Action)) (i : ι) : Prop :=
  ∀ front fault back s s', events = front ++ (i, .next fault) :: back →
    Transaction.sessions.run start front = some s →
    Transaction.sessions.fire s (i, .next fault) = some s' →
    s'.shared.committed.members = s.shared.committed.members

/-- Of all the calls at most one uses an invitation, by accepting or by revoking it. An accept that
succeeds is by an identity with the invitation's email, at a time it was pending, and the clock it
read first was before the expiry. A call that accepts nothing leaves the members alone. -/
theorem invitations_single_use (calls : ι → InvitationCall) {db : Memberships}
    (hrun : Transaction.sessions.run (requests calls db time) events = some s') :
    (∀ i j a b tokenHash, i ≠ j → Transaction.Discipline.Committed a (s'.locals i) →
      Transaction.Discipline.Committed b (s'.locals j) → Uses tokenHash (calls i) a →
        ¬ Uses tokenHash (calls j) b) ∧
    (∀ i tokenHash subject email invitation times answer,
      calls i = .accept tokenHash subject email →
      s'.locals i = .ended times (some (.accepted (some invitation))) answer →
        AcceptedBy db s'.shared.committed tokenHash email invitation times) ∧
    (∀ i, (∀ invitation,
      ¬ Transaction.Discipline.Committed (.accepted (some invitation)) (s'.locals i)) →
        LeavesMembers (requests calls db time) events i) := by
  have hholds := Transaction.Discipline.run_holds stable_after (requests_hold calls time) hrun
  refine ⟨fun i j a b tokenHash hne hi hj huses huses' => ?_, ?_, ?_⟩
  · exact not_bothUse hrun hne hi hj ⟨tokenHash, huses, huses'⟩
  · intro i tokenHash subject email invitation times answer hcall hended
    have hknown := hholds.2 i
    rw [hended] at hknown
    exact hknown.accepted tokenHash subject email invitation hcall rfl
  · intro i hrefused front fault back s s₁ hevents hfront hfire
    have hbefore := Transaction.Discipline.run_holds stable_after (requests_hold calls time) hfront
    refine members_of_fire hbefore hfire fun invitation hcommitted => hrefused invitation ?_
    -- what the step has committed is still committed at the end
    rw [hevents] at hrun
    obtain ⟨middle, hmiddle, hback⟩ := Threads.run_append_eq_some.mp hrun
    rw [hfront] at hmiddle
    obtain rfl := Option.some.inj hmiddle
    obtain ⟨next, hnext, hrest⟩ := Threads.run_cons_eq_some.mp hback
    rw [hfire] at hnext
    obtain rfl := Option.some.inj hnext
    exact Transaction.Discipline.run_committed hcommitted hrest

end Rules

/-! ## An invitation that expires while it is accepted -/

def expiring : InvitationRow where
  tokenHash := "t"
  organization := "acme"
  email := "Ada@example.com"
  role := "publisher"
  expiresAt := 100
  acceptedAt := none
  revokedAt := none

def withExpiring : Memberships := ⟨Table.empty.append expiring rfl, .empty⟩

def acceptAndRevoke : Bool → InvitationCall
  | false => .accept "t" "ada" "ada@example.com"
  | true => .revoke "t" "acme"

/-- The row is found at 99, and marked at 100. -/
def lateAccept : List (Bool × Transaction.Action) :=
  [(false, .next .none), (false, .next .none), (false, .setClock 100)] ++
    List.replicate 5 (false, .next .none)

theorem accepted_at_expiry : ∃ s' row acceptedAt,
    Transaction.sessions.run (requests acceptAndRevoke withExpiring 99) lateAccept = some s' ∧
    s'.shared.committed.invitation "t" = some row ∧ row.acceptedAt = some acceptedAt ∧
    row.expiresAt ≤ acceptedAt := by
  refine ⟨_, { expiring with acceptedAt := some 100 }, 100, rfl, rfl, rfl, ?_⟩
  decide

/-- A revoke after the accept does nothing. -/
theorem invitations_single_use_late : ∃ s',
    Transaction.sessions.run (requests acceptAndRevoke withExpiring 99)
      (lateAccept ++ List.replicate 3 (true, .next .none)) = some s' ∧
    LeavesMembers (requests acceptAndRevoke withExpiring 99)
      (lateAccept ++ List.replicate 3 (true, .next .none)) true := by
  obtain ⟨s', hrun, hended⟩ : ∃ s',
      Transaction.sessions.run (requests acceptAndRevoke withExpiring 99)
        (lateAccept ++ List.replicate 3 (true, .next .none)) = some s' ∧
      s'.locals true = .ended [100] (some (.revoked false)) (.ok (.revoked false)) := ⟨_, rfl, rfl⟩
  obtain ⟨-, -, hrefused⟩ := invitations_single_use acceptAndRevoke hrun
  refine ⟨s', hrun, hrefused true ?_⟩
  rintro invitation ⟨times, answer, haccepted⟩
  rw [hended] at haccepted
  cases haccepted

end Oath.Registry
