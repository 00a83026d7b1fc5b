import CeDrive.Drive
import CeDrive.Share

/-!
# The audit journal

`crates/ce-drive-core/src/audit.rs`, and the grants that `cmd_share` of
`crates/ce-drive-cli/src/main.rs` mints and records. The journal lists the grants in the order
they were issued. A share link is a grant of reading or of commenting.
-/

namespace CeDrive

/-- A grant that was issued. -/
structure GrantRecord where
  issuedAt : ℕ
  issuer : String
  audience : String
  ability : Ability
  scope : String
  expires : ℕ
  revokeNonce : ℕ
  isLink : Bool
  deriving DecidableEq

def GrantRecord.fromGrant (issuer : String) (issuedAt : ℕ) (grant : Grant) (isLink : Bool) :
    GrantRecord :=
  ⟨issuedAt, issuer, grant.audience, grant.ability, grant.scope, grant.expires, grant.revokeNonce,
    isLink⟩

structure RevokeRecord where
  revokedAt : ℕ
  issuer : String
  revokeNonce : ℕ
  deriving DecidableEq

structure AuditJournal where
  grants : List GrantRecord
  revokes : List RevokeRecord
  deriving DecidableEq

namespace AuditJournal

def new : AuditJournal :=
  ⟨[], []⟩

def recordGrant (j : AuditJournal) (record : GrantRecord) : AuditJournal :=
  { j with grants := j.grants ++ [record] }

def recordRevoke (j : AuditJournal) (record : RevokeRecord) : AuditJournal :=
  { j with revokes := j.revokes ++ [record] }

end AuditJournal

/-! ## Minting -/

/-- The ability a text names. -/
def Ability.parse (s : String) : Option Ability :=
  if s = "drive:read" ∨ s = "read" then some .read
  else if s = "drive:comment" ∨ s = "comment" then some .comment
  else if s = "drive:write" ∨ s = "write" then some .write
  else if s = "drive:admin" ∨ s = "admin" then some .admin
  else none

def Workspace.rootIdHex (ws : Workspace) : String :=
  ws.ids.nodeIdHex ws.identity

/-- Mint a share link. -/
def Workspace.shareLink (ws : Workspace) (linkHolderHex : String) (ability : Ability)
    (scope : String) (expiresUnix nonce : ℕ) : Except String Grant :=
  let ability := match ability with
    | .write | .admin => .read
    | a => a
  ws.grant linkHolderHex ability scope expiresUnix nonce

/-- The options of `cmd_share`. -/
structure ShareOptions where
  path : String
  toId : Option String
  ability : String
  link : Bool
  linkHolder : Option String
  expiresDays : ℕ

/-- The expiry of a grant issued at `nowSecs`, `none` for the overflow panic. -/
def expiresUnix (nowSecs expiresDays : ℕ) : Option ℕ :=
  if expiresDays = 0 then some 0
  else if nowSecs + expiresDays * 24 * 3600 < 2 ^ 64 then some (nowSecs + expiresDays * 24 * 3600)
  else none

/-- Mint the grant of a known ability. -/
def Workspace.issue (ws : Workspace) (o : ShareOptions) (ability : Ability) (expires nonce : ℕ) :
    Except String (Grant × Bool) :=
  if o.link then
    match o.linkHolder with
    | none => .error "--link requires --link-holder <key-hex>"
    | some holder => (ws.shareLink holder ability o.path expires nonce).map fun g => (g, true)
  else
    match o.toId with
    | none => .error "provide --to <node-id-hex> or use --link"
    | some toId => (ws.grant toId ability o.path expires nonce).map fun g => (g, false)

/-- The record of a new share. The clock is read for the expiry, the nonce and the record. -/
def Workspace.share (ws : Workspace) (o : ShareOptions) (clock : ℕ × ℕ × ℕ) :
    Option (Except String GrantRecord) :=
  match Ability.parse o.ability with
  | none => some (.error ("unknown ability '" ++ o.ability ++ "' (read|comment|write|admin)"))
  | some ability =>
    (expiresUnix clock.1 o.expiresDays).map fun expires =>
      (ws.issue o ability expires clock.2.1).map fun r =>
        .fromGrant ws.rootIdHex clock.2.2 r.1 r.2

theorem grant_eq {ws : Workspace} {audience scope : String} {ability : Ability} {expires nonce : ℕ}
    {g : Grant} (h : ws.grant audience ability scope expires nonce = .ok g) :
    g.ability = ability ∧ g.scope = normalizeScope scope := by
  unfold Workspace.grant at h
  cases hid : parseNodeId ws.ids audience with
  | error e => simp [hid, bind, Except.bind] at h
  | ok id =>
    simp only [hid, bind, Except.bind, pure, Except.pure, Except.ok.injEq] at h
    subst h
    simp only [and_self]

theorem shareLink_eq {ws : Workspace} {holder scope : String} {ability : Ability}
    {expires nonce : ℕ} {g : Grant} (h : ws.shareLink holder ability scope expires nonce = .ok g) :
    (g.ability = .read ∨ g.ability = .comment) ∧ g.scope = normalizeScope scope := by
  unfold Workspace.shareLink at h
  cases ability <;> obtain ⟨ha, hs⟩ := grant_eq h <;> exact ⟨by simp [ha], hs⟩

theorem map_eq_ok {ε α β : Type*} {f : α → β} {r : Except ε α} {b : β} (h : r.map f = .ok b) :
    ∃ a, r = .ok a ∧ f a = b := by
  cases r with
  | error e => cases h
  | ok a => exact ⟨a, rfl, Except.ok.inj h⟩

theorem issue_eq {ws : Workspace} {o : ShareOptions} {ability : Ability} {expires nonce : ℕ}
    {g : Grant} {isLink : Bool} (h : ws.issue o ability expires nonce = .ok (g, isLink)) :
    (isLink = true → g.ability = .read ∨ g.ability = .comment) ∧ g.scope = normalizeScope o.path := by
  unfold Workspace.issue at h
  split_ifs at h
  · split at h
    · cases h
    · obtain ⟨g', hg, heq⟩ := map_eq_ok h
      obtain ⟨rfl, rfl⟩ := Prod.mk.inj heq
      exact ⟨fun _ => (shareLink_eq hg).1, (shareLink_eq hg).2⟩
  · split at h
    · cases h
    · obtain ⟨g', hg, heq⟩ := map_eq_ok h
      obtain ⟨rfl, rfl⟩ := Prod.mk.inj heq
      exact ⟨fun hlink => absurd hlink Bool.false_ne_true, (grant_eq hg).2⟩

/-- A share link that is recorded lets read or comment, and any grant is of the path. -/
theorem share_eq {ws : Workspace} {o : ShareOptions} {clock : ℕ × ℕ × ℕ} {r : GrantRecord}
    (h : ws.share o clock = some (.ok r)) :
    (r.isLink = true → r.ability = .read ∨ r.ability = .comment) ∧
      r.scope = normalizeScope o.path := by
  unfold Workspace.share at h
  split at h
  · cases h
  · obtain ⟨expires, -, h⟩ := Option.map_eq_some_iff.1 h
    obtain ⟨⟨g, isLink⟩, hi, rfl⟩ := map_eq_ok h
    exact issue_eq hi

end CeDrive
