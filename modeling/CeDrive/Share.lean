import CeDrive.Lookup
import CeDrive.Scopes

/-!
# Sharing

`crates/ce-drive-core/src/share.rs`. A grant is a capability with a `path_prefix` caveat, the
normalized scope; `enforce_path_scope` normalizes the path and, again, the scope, and compares
them as texts. Signatures, and the encoding of a chain in the grant's token, are the
capability library's : a grant here holds the chain. So is the text of a node id (`NodeIds`).

In a tree whose names are valid, a node lies under another exactly if the components of a
path of the one extend those of a path of the other (`Replayed.reaches_iff_prefix`). The
check compares the components after blanks were cut (`enforcePathScope_eq_ok_iff`), so a
scope is enforced exactly if the cuts do not matter (`grant_confines_iff`).
-/

open Forest SortedLog

namespace CeDrive

/-! ## Grants -/

/-- The per-folder abilities. -/
inductive Ability
  | read
  | comment
  | write
  | admin
  deriving DecidableEq, Repr

/-- The ability strings a role implies. -/
def Ability.implied : Ability → List String
  | read => ["drive:read"]
  | comment => ["drive:read", "drive:comment"]
  | write => ["drive:read", "drive:comment", "drive:write"]
  | admin => ["drive:read", "drive:comment", "drive:write", "drive:admin"]

/-- The caveats a grant sets. -/
structure Caveats where
  notAfter : ℕ
  pathPrefix : Option String

/-- A capability on any resource, without its signature. -/
structure Capability where
  issuer : List UInt8
  audience : List UInt8
  abilities : List String
  caveats : Caveats
  nonce : ℕ

structure Grant where
  chain : List Capability
  scope : String
  ability : Ability
  audience : String
  expires : ℕ
  revokeNonce : ℕ

/-- What other packages do with node ids : `node_id_hex` and `hex::decode`. -/
structure NodeIds where
  nodeIdHex : List UInt8 → String
  decode : String → Option (List UInt8)

/-- Of a node id of zeros. -/
def NodeIds.zeros : NodeIds :=
  ⟨fun _ => String.ofList (List.replicate 64 '0'), fun _ => some (List.replicate 32 0)⟩

def parseNodeId (ids : NodeIds) (hex : String) : Except String (List UInt8) :=
  match ids.decode (trim hex) with
  | none => .error "node id is not valid hex"
  | some bytes =>
    if bytes.length = 32 then .ok bytes else .error "node id must be 32 bytes (64 hex chars)"

/-- A workspace, by the node id of its key. -/
structure Workspace where
  ids : NodeIds
  identity : List UInt8

/-- Mint a grant of a folder. -/
def Workspace.grant (ws : Workspace) (audienceHex : String) (ability : Ability) (scope : String)
    (expiresUnix nonce : ℕ) : Except String Grant := do
  let audience ← parseNodeId ws.ids audienceHex
  return {
    chain := [⟨ws.identity, audience, ability.implied,
      ⟨expiresUnix, some (normalizeScope scope)⟩, nonce⟩]
    scope := normalizeScope scope
    ability := ability
    audience := audienceHex
    expires := expiresUnix
    revokeNonce := nonce }

/-- Enforce the path of the last capability of a chain. -/
def enforcePathScope (path : String) (chain : List Capability) : Except String Unit :=
  if '\\' ∈ path.toList then .error "path contains a backslash separator"
  else if path.toList.any fun c => c.toNat < 0x20 then
    .error "path contains a control character"
  else if (DriveTree.splitSlash path).any fun comp => comp = ".." || comp = "." then
    .error "path escapes the scope with a '.'/'..' component"
  else match (chain.getLast?).bind fun c => c.caveats.pathPrefix with
    | none => .ok ()
    | some scope =>
      let norm := normalizeScope path
      let pfx := normalizeScope scope
      if pfx = "/" ∨ norm = pfx ∨ (pfx ++ "/").toList <+: norm.toList then .ok ()
      else .error ("path '" ++ norm ++ "' is outside the granted scope '" ++ pfx ++ "'")

/-! ## Paths that resolve -/

/-- A valid name has something other than white space, and is not a dot component. -/
theorem visible_of_validateName {name : String} (h : validateName name = .ok ()) :
    (∃ c ∈ name.toList, isWhiteSpace c = false) ∧ name ≠ "." ∧ name ≠ ".." := by
  unfold validateName at h
  split at h
  · cases h
  rename_i hblank
  split at h
  · cases h
  rename_i hdots
  exact ⟨by simpa using hblank, not_or.1 hdots⟩

/-- The slashes before and after a text only add empty pieces. -/
theorem mem_splitOn_append {L R l x : List Char} (hL : ∀ c ∈ L, c = '/') (hR : ∀ c ∈ R, c = '/')
    (h : x ∈ (L ++ l ++ R).splitOn '/') : x = [] ∨ x ∈ l.splitOn '/' := by
  have hleft : ∀ {L u : List Char}, (∀ c ∈ L, c = '/') → x ∈ (L ++ u).splitOn '/' →
      x = [] ∨ x ∈ u.splitOn '/' := by
    intro L u hL h
    induction L with
    | nil => exact Or.inr h
    | cons c L ih =>
      rw [hL c List.mem_cons_self, List.cons_append, List.splitOn_cons_eq_if_modifyHead,
        if_pos (by decide)] at h
      rcases List.mem_cons.1 h with rfl | h
      · exact Or.inl rfl
      · exact ih (fun d hd => hL d (List.mem_cons_of_mem _ hd)) h
  rw [List.append_assoc] at h
  rcases hleft hL h with rfl | h
  · exact Or.inl rfl
  · cases R with
    | nil => exact Or.inr (by simpa using h)
    | cons c R =>
      rw [hR c List.mem_cons_self, List.splitOn_append_cons_self, List.mem_append] at h
      rcases h with h | h
      · exact Or.inr h
      · rw [← List.append_nil R] at h
        rcases hleft (fun d hd => hR d (List.mem_cons_of_mem _ hd)) h with rfl | h
        · exact Or.inl rfl
        · exact Or.inl (by simpa using h)

namespace DriveTree

variable {t : DriveTree} {path : String} {n m : NodeId} {names comps comps' : List String}

/-- A piece of a path is empty or a component. -/
theorem mem_components_of_mem_splitSlash {r : String} (h : r ∈ splitSlash path) (hr : r ≠ "") :
    r ∈ components path := by
  obtain ⟨x, hx, rfl⟩ := List.mem_map.1 h
  have hx' : x ≠ [] := fun hnil => hr (by rw [hnil])
  rw [split_stripped path.toList, ← List.append_assoc] at hx
  have hmem := (mem_splitOn_append (eq_slash_of_mem_takeWhile _) (eq_slash_of_mem_rtakeWhile _)
    hx).resolve_left hx'
  rw [components_eq, partsOf]
  split_ifs with hempty
  · rw [hempty] at hmem
    exact absurd (by simpa using hmem) hx'
  · exact List.mem_map_of_mem hmem

/-- The names of all nodes are valid. -/
def NamesValid (t : DriveTree) : Prop :=
  ∀ (n : NodeId) (e : Edge), t.edges[n]? = some e → validateName e.name = .ok ()

theorem PathTo.validateName (hv : t.NamesValid) (h : t.PathTo names n) :
    ∀ b ∈ names, CeDrive.validateName b = .ok () := by
  induction h with
  | root => simp
  | child h he ih =>
    intro b hb
    rcases List.mem_append.1 hb with hb | hb
    · exact ih b hb
    · obtain rfl := List.mem_singleton.1 hb
      exact hv _ _ he

/-- In a tree of valid names the components of a path that resolves are visible, and none is
a dot component. -/
theorem Replayed.visible_of_resolve (ht : t.Replayed) (hv : t.NamesValid)
    (hr : t.resolve path = some n) : ∀ r ∈ components path, Visible r ∧ r ≠ "." ∧ r ≠ ".." := by
  rw [resolve_eq] at hr
  obtain ⟨names, hpath, hpre⟩ := ht.pathTo_of_resolveFrom .root hr
  have hvalid := hpath.validateName hv
  intro r hmem
  have hslash := slash_not_mem_components hmem
  rw [List.nil_append] at hvalid
  obtain ⟨b, hb, hbr⟩ : ∃ b ∈ names, b.toList <+: r.toList := by
    generalize components path = comps at hpre hmem
    clear hpath hvalid
    induction hpre with
    | nil => cases hmem
    | cons hbr _ ih =>
      rcases List.mem_cons.1 hmem with rfl | hmem
      · exact ⟨_, List.mem_cons_self, hbr⟩
      · obtain ⟨b, hb, hbr⟩ := ih hmem
        exact ⟨b, List.mem_cons_of_mem _ hb, hbr⟩
  obtain ⟨⟨c, hc, hblank⟩, hdot, hdots⟩ := visible_of_validateName (hvalid b hb)
  have hnot : ¬r.toList <+: ['.', '.'] := by
    intro hdd
    rcases List.prefix_cons_iff.1 (hbr.trans hdd) with hb | ⟨l, hb, hl⟩
    · simp [hb] at hc
    · rcases List.prefix_cons_iff.1 hl with rfl | ⟨u, rfl, hu⟩
      · exact hdot (String.toList_inj.1 hb)
      · obtain rfl := List.prefix_nil.1 hu
        exact hdots (String.toList_inj.1 hb)
  refine ⟨⟨hslash, c, hbr.subset hc, hblank⟩, ?_, ?_⟩
  · rintro rfl
    exact hnot (by decide)
  · rintro rfl
    exact hnot (by decide)

/-! ## Ancestors by path -/

theorem Replayed.resolveFrom_injective (ht : t.Replayed)
    (h : t.resolveFrom ROOT comps = some n) (h' : t.resolveFrom ROOT comps' = some n) :
    comps = comps' := by
  induction comps using List.reverseRecOn generalizing comps' n with
  | nil =>
    obtain rfl := Option.some_injective _ h
    rcases List.eq_nil_or_concat' comps' with rfl | ⟨l', r', rfl⟩
    · rfl
    · obtain ⟨q, -, -, -, hne⟩ := ht.exists_of_resolveFrom_append h'
      exact absurd rfl hne
  | append_singleton l r ih =>
    obtain ⟨q, hq, hlists, -, hne⟩ := ht.exists_of_resolveFrom_append h
    rcases List.eq_nil_or_concat' comps' with rfl | ⟨l', r', rfl⟩
    · exact absurd (Option.some_injective _ h').symm hne
    · obtain ⟨q', hq', hlists', -, -⟩ := ht.exists_of_resolveFrom_append h'
      obtain ⟨rfl, rfl⟩ := ht.lists_unique hlists hlists'
      rw [ih hq hq']

/-- A node lies at or under another exactly if its components extend those of the other. -/
theorem Replayed.reaches_iff_prefix (ht : t.Replayed) (h : t.resolveFrom ROOT comps = some m)
    (h' : t.resolveFrom ROOT comps' = some n) : Reaches t.parentOf n m ↔ comps <+: comps' := by
  constructor
  · intro hreach
    induction comps' using List.reverseRecOn generalizing n with
    | nil =>
      obtain rfl := Option.some_injective _ h'
      obtain rfl := ht.grounded.antisymm hreach (ht.mirror.reaches_of_resolveFrom h)
      rw [ht.resolveFrom_injective h h']
    | append_singleton l r ih =>
      obtain ⟨q, hq, -, hup, -⟩ := ht.exists_of_resolveFrom_append h'
      rcases (reaches_iff_of_parent hup).1 hreach with rfl | hreach
      · rw [ht.resolveFrom_injective h h']
      · exact (ih hq hreach).trans (List.prefix_append _ _)
  · rintro ⟨rest, rfl⟩
    rw [resolveFrom_append, h] at h'
    exact ht.mirror.reaches_of_resolveFrom h'

/-! ## The check -/

/-- No backslash, and no control character. -/
def Clean (path : String) : Prop :=
  '\\' ∉ path.toList ∧ ∀ c ∈ path.toList, 0x20 ≤ c.toNat

/-- The check cuts blanks off a scope and a path alike. Under the scope : the path is clean; if
the first component starts with a blank, a slash is before it in both or in neither; if the
last component of the scope ends with one, the path has the same components and no slash
after them. Elsewhere : the path is not clean, or the cut components do not extend those of
the scope. -/
structure Fits (scope path : String) : Prop where
  clean : components scope <+: components path → Clean path
  first : components scope <+: components path → ∀ b, (components scope).head? = some b →
    blankFirst b = true → slashFirst scope = slashFirst path
  last : components scope <+: components path → ∀ b, (components scope).getLast? = some b →
    blankLast b = true → components scope = components path ∧ slashLast path = false
  outside : ¬components scope <+: components path → Clean path →
    ¬scopeParts scope <+: pathParts path

theorem grant_eq_ok {ws : Workspace} {audience scope : String} {ability : Ability}
    {expires nonce : ℕ} {g : Grant} (h : ws.grant audience ability scope expires nonce = .ok g) :
    (g.chain.getLast?).bind (fun c => c.caveats.pathPrefix) = some (normalizeScope scope) := by
  unfold Workspace.grant at h
  cases hid : parseNodeId ws.ids audience with
  | error e => simp [hid, bind, Except.bind] at h
  | ok id =>
    obtain rfl : _ = g := by simpa [hid, bind, Except.bind, pure, Except.pure] using h
    rfl

/-- A path is accepted if it is clean and its cut components extend those of the scope. -/
theorem enforcePathScope_eq_ok_iff {t : DriveTree} (ht : t.Replayed) (hv : t.NamesValid)
    {scope path : String} {m n : NodeId} (hs : t.resolve scope = some m)
    (hp : t.resolve path = some n) {chain : List Capability}
    (hchain : (chain.getLast?).bind (fun c => c.caveats.pathPrefix) = some (normalizeScope scope)) :
    enforcePathScope path chain = .ok () ↔ Clean path ∧ scopeParts scope <+: pathParts path := by
  have hsv := ht.visible_of_resolve hv hs
  have hpv := ht.visible_of_resolve hv hp
  have hdots : ¬((splitSlash path).any fun comp => comp = ".." || comp = ".") = true := by
    rw [List.any_eq_true]
    rintro ⟨comp, hmem, heq⟩
    have heq' : comp = ".." ∨ comp = "." := by simpa using heq
    have hne : comp ≠ "" := by rcases heq' with rfl | rfl <;> decide
    obtain ⟨-, hdot, hdotdot⟩ := hpv comp (mem_components_of_mem_splitSlash hmem hne)
    exact heq'.elim hdotdot hdot
  have hcontrol : (path.toList.any fun c => decide (c.toNat < 0x20)) = true ↔
      ¬∀ c ∈ path.toList, 0x20 ≤ c.toNat := by
    simp
  unfold enforcePathScope
  rw [Clean, ← normalizeScope_within_iff (fun b hb => (hsv b hb).1) fun b hb => (hpv b hb).1, hchain]
  split_ifs with hback hctrl
  · simp [hback]
  · simp [hcontrol.1 hctrl]
  · have hclean : ∀ c ∈ path.toList, 0x20 ≤ c.toNat := not_not.1 (hcontrol.not.1 hctrl)
    rw [and_iff_right ⟨hback, hclean⟩]
    simp only
    split_ifs with hok
    · exact iff_of_true rfl hok
    · exact iff_of_false (by simp) hok

/-- Confinement of a share. In a tree of valid names, a path under a granted scope is
accepted and no other, if and only if the cuts of the check do not tell them apart. -/
theorem grant_confines_iff {t : DriveTree} (ht : t.Replayed) (hv : t.NamesValid)
    {scope path : String} {m n : NodeId} (hs : t.resolve scope = some m)
    (hp : t.resolve path = some n) {ws : Workspace} {audience : String} {ability : Ability}
    {expires nonce : ℕ} {g : Grant} (hg : ws.grant audience ability scope expires nonce = .ok g) :
    (enforcePathScope path g.chain = .ok () → Reaches t.parentOf n m) ∧
        (components scope <+: components path → enforcePathScope path g.chain = .ok ()) ↔
      Fits scope path := by
  have haccept := enforcePathScope_eq_ok_iff ht hv hs hp (grant_eq_ok hg)
  have hsv := ht.visible_of_resolve hv hs
  rw [haccept, ht.reaches_iff_prefix (resolve_eq t scope ▸ hs) (resolve_eq t path ▸ hp)]
  by_cases hpre : components scope <+: components path
  · have hcut : scopeParts scope <+: pathParts path ↔ _ :=
      cut_prefix_iff (fun b hb => (hsv b hb).1) hpre (!slashFirst scope) (!slashFirst path)
        (!slashLast path)
    rw [hcut]
    constructor
    · rintro ⟨-, h⟩
      obtain ⟨hclean, hfirst, hlast⟩ := h hpre
      exact ⟨fun _ => hclean, fun _ b hb hblank => by simpa using hfirst b hb hblank,
        fun _ b hb hblank => by simpa using hlast b hb hblank, fun hnot => absurd hpre hnot⟩
    · rintro ⟨hclean, hfirst, hlast, -⟩
      refine ⟨fun _ => hpre, fun _ => ⟨hclean hpre, fun b hb hblank => ?_, fun b hb hblank => ?_⟩⟩
      · rw [hfirst hpre b hb hblank]
      · simpa using hlast hpre b hb hblank
  · constructor
    · rintro ⟨h, -⟩
      exact ⟨fun hp => absurd hp hpre, fun hp => absurd hp hpre, fun hp => absurd hp hpre,
        fun _ hclean hext => hpre (h ⟨hclean, hext⟩)⟩
    · rintro ⟨-, -, -, hout⟩
      exact ⟨fun ⟨hclean, hext⟩ => absurd hext (hout hpre hclean), fun hp => absurd hp hpre⟩

theorem namesValid_applyAll {ops : List MoveOp}
    (h : ∀ op ∈ ops, CeDrive.validateName op.newName = .ok ()) : (applyAll ops).NamesValid := by
  intro n e he
  obtain ⟨op, hop, -, rfl⟩ := (replayed_applyAll ops).exists_op_of_edge he
  rw [logOps_applyAll] at hop
  exact h op (mem_of_mem_deliverAll hop)

/-- A grant by the node id of sixty-four zeros. -/
def zeroGrant (scope : String) : Except String Grant :=
  (⟨.zeros, []⟩ : Workspace).grant (String.ofList (List.replicate 64 '0')) .write scope 0 1

/-- A file in a directory. -/
def fileInDocs : List MoveOp :=
  [⟨⟨1, "r"⟩, "x", ROOT, "docs", .dir⟩, ⟨⟨2, "r"⟩, "y", "x", "a", .file⟩]

/-- A path in a granted directory. -/
theorem grant_confines_iff_docs : ∃ g, zeroGrant "/docs" = .ok g ∧
    (enforcePathScope "/docs/a" g.chain = .ok () → Reaches (applyAll fileInDocs).parentOf "y" "x") ∧
    (components "/docs" <+: components "/docs/a" → enforcePathScope "/docs/a" g.chain = .ok ()) := by
  have hok : (zeroGrant "/docs").isOk = true := by decide +kernel
  cases hg : zeroGrant "/docs" with
  | error e => simp [hg, Except.isOk, Except.toBool] at hok
  | ok g =>
    refine ⟨g, rfl, (grant_confines_iff (replayed_applyAll fileInDocs)
      (namesValid_applyAll (by decide)) (by decide +kernel) (by decide +kernel) hg).2 ?_⟩
    have hclean : Clean "/docs/a" := ⟨by decide, by simp⟩
    have hdocs : components "/docs" = ["docs"] := by decide
    refine ⟨fun _ => hclean, fun _ b hb hblank => rfl, fun _ b hb hblank => ?_, fun hpre => ?_⟩
    · obtain rfl : "docs" = b := by simpa [hdocs] using hb
      exact absurd hblank (by decide)
    · exact absurd (by decide) hpre

/-- Two directories whose names differ by a blank. -/
def docsTwice : List MoveOp :=
  [⟨⟨1, "r"⟩, "x", ROOT, "docs ", .dir⟩, ⟨⟨2, "r"⟩, "y", ROOT, "docs", .dir⟩]

/-- A grant of the one admits to the other. -/
theorem grant_escapes : (applyAll docsTwice).NamesValid ∧
    (applyAll docsTwice).resolve "/docs " = some "x" ∧
    (applyAll docsTwice).resolve "/docs" = some "y" ∧ ∃ g, zeroGrant "/docs " = .ok g ∧
    ¬((enforcePathScope "/docs" g.chain = .ok () → Reaches (applyAll docsTwice).parentOf "y" "x") ∧
      (components "/docs " <+: components "/docs" → enforcePathScope "/docs" g.chain = .ok ())) := by
  refine ⟨namesValid_applyAll (by decide), by decide +kernel, by decide +kernel, ?_⟩
  have hok : ((zeroGrant "/docs ").toOption.any fun g =>
      (enforcePathScope "/docs" g.chain).isOk) = true := by decide +kernel
  have hgr := (replayed_applyAll docsTwice).grounded
  have hnot : ¬Reaches (applyAll docsTwice).parentOf "y" "x" := fun hreach =>
    absurd (hgr.isAncestor_iff.2 hreach) (by decide +kernel)
  cases hg : zeroGrant "/docs " with
  | error e => simp [hg, Except.toOption] at hok
  | ok g =>
    refine ⟨g, rfl, fun h => hnot (h.1 ?_)⟩
    cases he : enforcePathScope "/docs" g.chain with
    | error e => simp [hg, he, Except.toOption, Except.isOk, Except.toBool] at hok
    | ok u => rfl

end DriveTree

end CeDrive
