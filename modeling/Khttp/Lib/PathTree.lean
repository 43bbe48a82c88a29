import Mathlib.Data.List.Basic
import Mathlib.Data.List.Infix
import Mathlib.Tactic.Common

/-!
# Path names over a tree with symbolic links

A canonical path is the list of the names on the way down from the root. A path
text is read component by component; a symbolic link puts the components of its
target in front of those that are left, so many times at most. The lemmas say
that a path found so is found again by its own text, that the entries a directory
gives do not matter to it, and when the text of one canonical path starts the text
of another.
-/

namespace Khttp.Lib

/-- The symbols with a meaning of their own in the text of a path. -/
structure PathSyntax (α : Type*) where
  /-- The separator of two components. -/
  sep : α
  /-- The symbol that spells the components for a directory and its parent. -/
  dot : α
  /-- The symbol that ends a text. -/
  nul : α

variable {α : Type*} {σ : PathSyntax α}

/-- A text that may name a directory entry other than the directory and its parent. -/
def PathSyntax.IsName (σ : PathSyntax α) (text : List α) : Prop :=
  text ≠ [] ∧ σ.sep ∉ text ∧ σ.nul ∉ text ∧ text ≠ [σ.dot] ∧ text ≠ [σ.dot, σ.dot]

instance [DecidableEq α] (text : List α) : Decidable (σ.IsName text) := instDecidableAnd

/-- The name of a directory entry. -/
@[ext] structure PathName (σ : PathSyntax α) where
  /-- Its spelling. -/
  text : List α
  /-- The spelling is that of a name. -/
  isName : σ.IsName text
  deriving DecidableEq

/-- A canonical path: the names from the root down. -/
abbrev CanonPath (σ : PathSyntax α) := List (PathName σ)

/-- The text of a canonical path below the root. -/
def spell (p : CanonPath σ) : List α := p.flatMap fun n => σ.sep :: n.text

/-- The text of a canonical path. -/
def render : CanonPath σ → List α
  | [] => [σ.sep]
  | n :: p => spell (n :: p)

/-- One component of a path text. -/
inductive Component (σ : PathSyntax α) where
  /-- The directory reached so far. -/
  | here
  /-- Its parent. -/
  | up
  /-- An entry of it. -/
  | down (name : PathName σ)

/-- What stands at a place of the tree. -/
inductive FileNode (α : Type*) where
  /-- A regular file. -/
  | regular
  /-- A directory; its entries in the order in which they are read. -/
  | directory (entries : List (List α))
  /-- A symbolic link and the text of its target. -/
  | symlink (target : List α)
  /-- Anything else. -/
  | special
  deriving DecidableEq, Repr

/-- A node, with other entries where it is a directory. -/
def FileNode.relist (entries : List (List α)) : FileNode α → FileNode α
  | .directory _ => .directory entries
  | node => node

/-- Whether a path may lead through a place: a directory whose permissions allow it. -/
def enters (node : CanonPath σ → Option (FileNode α)) (searchable : CanonPath σ → Bool)
    (p : CanonPath σ) : Bool :=
  match node p with
  | some (.directory _) => searchable p
  | _ => false

/-- The places with directories all the way down to them and no link among them. -/
inductive Reached (node : CanonPath σ → Option (FileNode α)) (searchable : CanonPath σ → Bool) :
    CanonPath σ → Prop
  | root (henters : enters node searchable []) : Reached node searchable []
  | child {p : CanonPath σ} {n : PathName σ} {found : FileNode α}
      (hp : Reached node searchable p) (henters : enters node searchable p)
      (hnode : node (p ++ [n]) = some found) (hlink : ∀ target, found ≠ .symlink target) :
      Reached node searchable (p ++ [n])

/-- The same nodes stand at the same places, up to the entries of directories. -/
def SameNodes (node node' : CanonPath σ → Option (FileNode α)) : Prop :=
  ∀ p, (node p).map (FileNode.relist []) = (node' p).map (FileNode.relist [])

section SameNodes

variable {node node' : CanonPath σ → Option (FileNode α)} {searchable : CanonPath σ → Bool}

/-- Whether a path may lead through a place does not depend on the entries. -/
theorem SameNodes.enters_eq (h : SameNodes node node') (p : CanonPath σ) :
    enters node searchable p = enters node' searchable p := by
  have hp := h p
  unfold enters
  cases hnode : node p with
  | none =>
    rw [hnode, Option.map_none, eq_comm, Option.map_eq_none_iff] at hp
    rw [hp]
  | some found =>
    rw [hnode, Option.map_some, eq_comm] at hp
    obtain ⟨found', hfound', hsame⟩ := Option.map_eq_some_iff.mp hp
    rw [hfound']
    cases found <;> cases found' <;> simp_all [FileNode.relist]

/-- A node that is no link stands for one that is no link. -/
theorem SameNodes.exists_node (h : SameNodes node node') {p : CanonPath σ} {found : FileNode α}
    (hnode : node p = some found) (hlink : ∀ target, found ≠ .symlink target) :
    ∃ found', node' p = some found' ∧ ∀ target, found' ≠ .symlink target := by
  have hp := h p
  rw [hnode, Option.map_some, eq_comm] at hp
  obtain ⟨found', hfound', hsame⟩ := Option.map_eq_some_iff.mp hp
  refine ⟨found', hfound', ?_⟩
  rintro target rfl
  cases found with
  | symlink other => exact hlink other rfl
  | regular | directory | special => simp [FileNode.relist] at hsame

/-- A link stands for the same link. -/
theorem SameNodes.symlink (h : SameNodes node node') {p : CanonPath σ} {target : List α}
    (hnode : node p = some (.symlink target)) : node' p = some (.symlink target) := by
  have hp := h p
  rw [hnode, Option.map_some, eq_comm] at hp
  obtain ⟨found', hfound', hsame⟩ := Option.map_eq_some_iff.mp hp
  rw [hfound']
  cases found' <;> simp_all [FileNode.relist]

/-- Which places are reached does not depend on the entries. -/
theorem SameNodes.reached (h : SameNodes node node') {p : CanonPath σ}
    (hp : Reached node searchable p) : Reached node' searchable p := by
  induction hp with
  | root henters => exact .root ((h.enters_eq []).symm.trans henters)
  | child _ henters hnode hlink ih =>
    obtain ⟨_, hnode', hlink'⟩ := h.exists_node hnode hlink
    exact .child ih ((h.enters_eq _).symm.trans henters) hnode' hlink'

/-- The nodes, with other entries for a directory at a place. -/
def relistAt [DecidableEq α] (node : CanonPath σ → Option (FileNode α)) (p : CanonPath σ)
    (entries : List (List α)) : CanonPath σ → Option (FileNode α) :=
  fun q => if q = p then (node q).map (FileNode.relist entries) else node q

/-- Other entries leave the nodes the same. -/
theorem sameNodes_relistAt [DecidableEq α] (node : CanonPath σ → Option (FileNode α))
    (p : CanonPath σ) (entries : List (List α)) : SameNodes node (relistAt node p entries) := by
  intro q
  unfold relistAt
  split
  · cases node q with
    | none => rfl
    | some found => cases found <;> rfl
  · rfl

end SameNodes

/-- A file tree as path resolution sees it. -/
structure FileTree (σ : PathSyntax α) where
  /-- What stands at a place. -/
  node : CanonPath σ → Option (FileNode α)
  /-- Whether the permissions of a directory allow to pass through it. -/
  searchable : CanonPath σ → Bool
  /-- The directory that relative paths start from. -/
  cwd : CanonPath σ
  /-- It is a place of the tree. -/
  cwd_reached : Reached node searchable cwd

/-- The root of a tree is a directory that can be passed through. -/
theorem enters_root {node : CanonPath σ → Option (FileNode α)} {searchable : CanonPath σ → Bool}
    {p : CanonPath σ} (hp : Reached node searchable p) : enters node searchable [] := by
  induction hp with
  | root henters => exact henters
  | child _ _ _ _ ih => exact ih

namespace FileTree

/-- The places of the tree. -/
abbrev IsPlace (t : FileTree σ) (p : CanonPath σ) : Prop := Reached t.node t.searchable p

/-- Where following components ends. -/
inductive Walk (σ : PathSyntax α) where
  /-- All of them were followed. -/
  | arrived (p : CanonPath σ)
  /-- One of them leads nowhere. -/
  | failed
  /-- One of them names a symbolic link. -/
  | link (base : CanonPath σ) (target : List α) (rest : List (Component σ))

/-- Follows components up to the first symbolic link. -/
def walk (t : FileTree σ) : CanonPath σ → List (Component σ) → Walk σ
  | p, [] => .arrived p
  | p, c :: rest =>
    if enters t.node t.searchable p then
      match c with
      | .here => walk t p rest
      | .up => walk t p.dropLast rest
      | .down n =>
        match t.node (p ++ [n]) with
        | none => .failed
        | some (.symlink target) => .link p target rest
        | some _ => walk t (p ++ [n]) rest
    else .failed

variable {t : FileTree σ}

/-- The parent of a place is a place. -/
theorem isPlace_dropLast {p : CanonPath σ} (hp : t.IsPlace p) : t.IsPlace p.dropLast := by
  cases hp with
  | root henters => exact .root henters
  | child hp _ _ _ => simpa using hp

/-- An entry that is no link is followed to its place. -/
theorem walk_down {p : CanonPath σ} {n : PathName σ} {found : FileNode α}
    (henters : enters t.node t.searchable p) (hnode : t.node (p ++ [n]) = some found)
    (hlink : ∀ target, found ≠ .symlink target) (rest : List (Component σ)) :
    t.walk p (.down n :: rest) = t.walk (p ++ [n]) rest := by
  simp only [walk, henters, if_true, hnode]

/-- Following the names of a place from the root leads to it. -/
theorem walk_of_isPlace {p : CanonPath σ} (hp : t.IsPlace p) (rest : List (Component σ)) :
    t.walk [] (p.map .down ++ rest) = t.walk p rest := by
  induction hp generalizing rest with
  | root _ => rfl
  | child _ henters hnode hlink ih =>
    rw [List.map_append, List.append_assoc, ih]
    exact walk_down henters hnode hlink rest

/-- Following components from a place stays among the places. -/
theorem isPlace_of_walk {p : CanonPath σ} {cs : List (Component σ)} (hp : t.IsPlace p) :
    (∀ q, t.walk p cs = .arrived q → t.IsPlace q) ∧
    ∀ base target rest, t.walk p cs = .link base target rest → t.IsPlace base := by
  fun_induction walk t p cs with
  | case1 p => simpa using hp
  | case2 p rest henters ih => exact ih hp
  | case3 p rest henters ih => exact ih (isPlace_dropLast hp)
  | case4 | case7 => simp
  | case5 p rest henters n target hnode => simpa using hp
  | case6 p rest henters n found hlink hnode ih => exact ih (.child hp henters hnode hlink)

/-- Following components does not depend on the entries. -/
theorem walk_congr {t' : FileTree σ} (hnode : SameNodes t.node t'.node)
    (hsearchable : t.searchable = t'.searchable) (p : CanonPath σ) (cs : List (Component σ)) :
    t.walk p cs = t'.walk p cs := by
  have henters (p : CanonPath σ) :
      enters t.node t.searchable p = enters t'.node t'.searchable p := by
    rw [hnode.enters_eq, hsearchable]
  fun_induction walk t p cs with
  | case1 p => rfl
  | case2 p rest henter ih | case3 p rest henter ih =>
    rw [walk, ← henters, if_pos henter]
    exact ih
  | case4 p rest henter n hnone =>
    have hnone' : t'.node (p ++ [n]) = none := by
      have hsame := hnode (p ++ [n])
      rw [hnone, Option.map_none, eq_comm] at hsame
      exact Option.map_eq_none_iff.mp hsame
    rw [walk, ← henters, if_pos henter]
    simp only [hnone']
  | case5 p rest henter n target hlink =>
    rw [walk, ← henters, if_pos henter]
    simp only [hnode.symlink hlink]
  | case6 p rest henter n found hlink hfound ih =>
    obtain ⟨_, hfound', hlink'⟩ := hnode.exists_node hfound hlink
    rw [ih, walk_down ((henters p).symm.trans henter) hfound' hlink']
  | case7 p c rest hclosed =>
    rw [walk.eq_def]
    simp only [← henters, if_neg hclosed]

variable [DecidableEq α]

/-- The tree where the directory at a place gives its entries in another order. -/
def relist (t : FileTree σ) (p : CanonPath σ) (entries : List (List α)) : FileTree σ where
  node := relistAt t.node p entries
  searchable := t.searchable
  cwd := t.cwd
  cwd_reached := (sameNodes_relistAt t.node p entries).reached t.cwd_reached

/-- Where the components of a text start. -/
def start (base : CanonPath σ) (text : List α) : CanonPath σ :=
  if text.head? = some σ.sep then [] else base

end FileTree

variable [DecidableEq α]

/-- What a component says. -/
def component (σ : PathSyntax α) (text : List α) : Component σ :=
  if text = [σ.dot, σ.dot] then .up
  else if h : σ.IsName text then .down ⟨text, h⟩
  else .here

/-- The components of a path text. -/
def components (σ : PathSyntax α) (text : List α) : List (Component σ) :=
  (text.splitOn σ.sep).map (component σ)

/-- A name is the component down to its entry. -/
theorem component_text (n : PathName σ) : component σ n.text = .down n := by
  obtain ⟨hnil, hsep, hnul, hdot, hdots⟩ := n.isName
  unfold component
  rw [if_neg hdots, dif_pos n.isName]

/-- A component down to an entry has the spelling of its name. -/
theorem text_of_component_eq_down {text : List α} {n : PathName σ}
    (h : component σ text = .down n) : n.text = text := by
  unfold component at h
  split_ifs at h
  exact congrArg PathName.text (Component.down.inj h).symm

/-- A separator ends a component. -/
theorem components_append_sep (left right : List α) :
    components σ (left ++ σ.sep :: right) = components σ left ++ components σ right := by
  unfold components
  rw [List.splitOn_append_cons_self, List.map_append]

/-- A text without separator is one component. -/
theorem components_of_sep_notMem {text : List α} (h : σ.sep ∉ text) :
    components σ text = [component σ text] := by
  unfold components
  rw [List.splitOn_eq_singleton h, List.map_singleton]

/-- The components of a canonical path are its names, after what stands before it. -/
theorem components_append_spell {text : List α} (h : σ.sep ∉ text) (p : CanonPath σ) :
    components σ (text ++ spell p) = component σ text :: p.map .down := by
  induction p generalizing text with
  | nil => simpa [spell] using components_of_sep_notMem h
  | cons n p ih =>
    have hspell : spell (n :: p) = σ.sep :: (n.text ++ spell p) := by simp [spell]
    rw [hspell, components_append_sep, components_of_sep_notMem h, ih n.isName.2.1,
      component_text, List.map_cons, List.singleton_append]

/-- The text of no component stands for the directory itself. -/
theorem component_nil : component σ [] = .here := by
  simp [component, PathSyntax.IsName]

namespace FileTree

variable {t : FileTree σ}

/-- Follows components through so many symbolic links at most. -/
def resolve (t : FileTree σ) : ℕ → CanonPath σ → List (Component σ) → Option (CanonPath σ)
  | links, p, cs =>
    match t.walk p cs with
    | .arrived q => some q
    | .failed => none
    | .link base target rest =>
      match links with
      | 0 => none
      | links + 1 =>
        if target = [] then none
        else resolve t links (start base target) (components σ target ++ rest)

/-- The place that a path text leads to. -/
def lookup (t : FileTree σ) (links : ℕ) (text : List α) : Option (CanonPath σ) :=
  if text = [] then none else t.resolve links (start t.cwd text) (components σ text)

/-- What components lead to does not depend on the entries. -/
theorem resolve_congr {t' : FileTree σ} (hnode : SameNodes t.node t'.node)
    (hsearchable : t.searchable = t'.searchable) (links : ℕ) (p : CanonPath σ)
    (cs : List (Component σ)) : t.resolve links p cs = t'.resolve links p cs := by
  have hwalk' := walk_congr hnode hsearchable
  fun_induction resolve t links p cs with
  | case1 links p cs q hwalk | case2 links p cs hwalk | case3 p cs base target rest hwalk =>
    rw [resolve.eq_def]
    simp only [← hwalk', hwalk]
  | case4 p cs base rest links hwalk =>
    rw [resolve.eq_def]
    simp only [← hwalk', hwalk, if_true]
  | case5 p cs base target rest hwalk links hne ih =>
    rw [ih, resolve.eq_def t' (links + 1)]
    simp only [← hwalk', hwalk, if_neg hne]

/-- A path leads to the same place however a directory is listed. -/
theorem lookup_relist (p : CanonPath σ) (entries : List (List α)) (links : ℕ) (text : List α) :
    (t.relist p entries).lookup links text = t.lookup links text := by
  have hsame : SameNodes t.node (t.relist p entries).node :=
    sameNodes_relistAt t.node p entries
  unfold lookup
  rw [← resolve_congr hsame rfl]
  rfl

/-- Where components start is a place. -/
theorem isPlace_start {base : CanonPath σ} (hp : t.IsPlace base) (text : List α) :
    t.IsPlace (start base text) := by
  unfold start
  split
  · exact .root (enters_root hp)
  · exact hp

/-- What is resolved from a place is a place. -/
theorem isPlace_of_resolve {links : ℕ} {p q : CanonPath σ} {cs : List (Component σ)}
    (hp : t.IsPlace p) (h : t.resolve links p cs = some q) : t.IsPlace q := by
  fun_induction resolve t links p cs with
  | case1 links p cs arrived hwalk =>
    exact (isPlace_of_walk hp).1 q (hwalk.trans (congrArg _ (Option.some.inj h)))
  | case2 | case3 | case4 => simp at h
  | case5 p cs base target rest hwalk links hne ih =>
    exact ih (isPlace_start ((isPlace_of_walk hp).2 _ _ _ hwalk) target) h

/-- What a text leads to is a place. -/
theorem isPlace_of_lookup {links : ℕ} {text : List α} {p : CanonPath σ}
    (h : t.lookup links text = some p) : t.IsPlace p := by
  unfold lookup at h
  split at h
  · simp at h
  · exact isPlace_of_resolve (isPlace_start t.cwd_reached text) h

/-- The text of a place, followed from the root, leads to it. -/
theorem walk_render {p : CanonPath σ} (hp : t.IsPlace p) (rest : List (Component σ)) :
    t.walk [] (components σ (render p) ++ rest) = t.walk p rest := by
  have hhere (rest : List (Component σ)) : t.walk [] (.here :: rest) = t.walk [] rest := by
    simp only [walk, enters_root hp, if_true]
  cases p with
  | nil =>
    have hsplit : components σ ([] ++ σ.sep :: []) = [.here, .here] := by
      rw [components_append_sep, components_of_sep_notMem (by simp), component_nil]
      rfl
    simp only [render, List.nil_append] at hsplit ⊢
    rw [hsplit, List.cons_append, List.cons_append, hhere, hhere, List.nil_append]
  | cons n p =>
    have hspell := @components_append_spell α σ _ [] (by simp) (n :: p)
    rw [List.nil_append, component_nil] at hspell
    rw [render, hspell, List.cons_append, hhere, walk_of_isPlace hp]

/-- The text of a canonical path starts at the root. -/
theorem start_render (base p : CanonPath σ) (text : List α) :
    start base (render p ++ text) = [] := by
  cases p <;> simp [start, render, spell]

/-- A text that goes on after the text of a place is resolved from that place. -/
theorem lookup_render_append {p : CanonPath σ} (hp : t.IsPlace p) (links : ℕ) (text : List α) :
    t.lookup links (render p ++ σ.sep :: text) = t.resolve links p (components σ text) := by
  unfold lookup
  rw [if_neg (by simp), start_render, components_append_sep, resolve.eq_def,
    resolve.eq_def t links p]
  simp only [walk_render hp]

/-- A place is found by its own text. -/
theorem lookup_render {p : CanonPath σ} (hp : t.IsPlace p) (links : ℕ) :
    t.lookup links (render p) = some p := by
  have hwalk : t.walk [] (components σ (render p)) = .arrived p := by
    simpa only [List.append_nil, walk] using walk_render hp []
  have hstart : start t.cwd (render p) = [] := by simpa using start_render t.cwd p []
  have hnil : render p ≠ [] := by cases p <;> simp [render, spell]
  unfold lookup
  rw [if_neg hnil, hstart, resolve.eq_def]
  simp only [hwalk]

/-- Nothing is resolved through a place that cannot be passed. -/
theorem resolve_of_not_enters {p : CanonPath σ} {c : Component σ} {rest : List (Component σ)}
    (henters : enters t.node t.searchable p = false) (links : ℕ) :
    t.resolve links p (c :: rest) = none := by
  have hwalk : t.walk p (c :: rest) = .failed := by
    simp only [walk, henters, Bool.false_eq_true, if_false]
  rw [resolve.eq_def]
  simp only [hwalk]

/-- An entry that is no link is resolved to its place. -/
theorem resolve_down {p : CanonPath σ} {n : PathName σ} {found : FileNode α}
    (henters : enters t.node t.searchable p) (hnode : t.node (p ++ [n]) = some found)
    (hlink : ∀ target, found ≠ .symlink target) (links : ℕ) :
    t.resolve links p [.down n] = some (p ++ [n]) := by
  have hwalk : t.walk p [.down n] = .arrived (p ++ [n]) := by
    rw [walk_down henters hnode hlink, walk]
  rw [resolve.eq_def]
  simp only [hwalk]

end FileTree

/-- A name other than that of a directory stands in its place and starts with it. -/
def SharesName (dir p : CanonPath σ) : Prop :=
  ∃ parent name other rest, dir = parent ++ [name] ∧ p = parent ++ other :: rest ∧
    name ≠ other ∧ name.text <+: other.text

omit [DecidableEq α] in
/-- What shares a name with a directory does not lie in it. -/
theorem SharesName.not_below {dir p : CanonPath σ} (h : SharesName dir p) : ¬ dir <+: p := by
  obtain ⟨parent, name, other, rest, rfl, rfl, hne, _⟩ := h
  rintro ⟨tail, htail⟩
  rw [List.append_assoc] at htail
  exact hne (List.cons.inj (List.append_cancel_left htail)).1

omit [DecidableEq α] in
/-- What lies below a place that shares a name with a directory shares it too. -/
theorem SharesName.append {dir p : CanonPath σ} (h : SharesName dir p) (below : CanonPath σ) :
    SharesName dir (p ++ below) := by
  obtain ⟨parent, name, other, rest, rfl, rfl, hne, hstarts⟩ := h
  exact ⟨parent, name, other, rest ++ below, rfl, by simp, hne, hstarts⟩

omit [DecidableEq α] in
/-- Two texts without separators that go on with a separator, the second one perhaps with
nothing: the first starts the second only when they agree up to there. -/
theorem prefix_of_sep {left right x y : List α} (hleft : σ.sep ∉ left) (hright : σ.sep ∉ right)
    (hy : ∀ c ∈ y.head?, c = σ.sep) (h : left ++ σ.sep :: x <+: right ++ y) :
    left = right ∧ σ.sep :: x <+: y := by
  induction left generalizing right with
  | nil =>
    cases right with
    | nil => exact ⟨rfl, h⟩
    | cons c right =>
      rw [List.nil_append, List.cons_append, List.cons_prefix_cons] at h
      exact absurd (List.mem_cons.mpr (Or.inl h.1)) hright
  | cons c left ih =>
    cases right with
    | nil =>
      cases y with
      | nil => simp at h
      | cons d y =>
        rw [List.cons_append, List.nil_append, List.cons_prefix_cons] at h
        have hd : d = σ.sep := hy d rfl
        exact absurd (List.mem_cons.mpr (Or.inl (h.1.trans hd).symm)) hleft
    | cons d right =>
      rw [List.cons_append, List.cons_append, List.cons_prefix_cons] at h
      obtain ⟨rfl, h⟩ := h
      simp only [List.mem_cons, not_or] at hleft hright
      obtain ⟨rfl, hx⟩ := ih hleft.2 hright.2 h
      exact ⟨rfl, hx⟩

omit [DecidableEq α] in
/-- A text without separators that starts a text going on with a separator starts its first
part. -/
theorem prefix_of_sepFree {left right y : List α} (hleft : σ.sep ∉ left)
    (hy : ∀ c ∈ y.head?, c = σ.sep) (h : left <+: right ++ y) : left <+: right := by
  induction left generalizing right with
  | nil => exact List.nil_prefix
  | cons c left ih =>
    cases right with
    | nil =>
      cases y with
      | nil => simp at h
      | cons d y =>
        rw [List.nil_append, List.cons_prefix_cons] at h
        have hd : d = σ.sep := hy d rfl
        exact absurd (List.mem_cons.mpr (Or.inl (h.1.trans hd).symm)) hleft
    | cons d right =>
      rw [List.cons_append, List.cons_prefix_cons] at h
      obtain ⟨rfl, h⟩ := h
      rw [List.mem_cons, not_or] at hleft
      exact (List.cons_prefix_cons).mpr ⟨rfl, ih hleft.2 h⟩

omit [DecidableEq α] in
/-- The spelling of a path, when it is not empty, starts with a separator. -/
theorem head_spell (p : CanonPath σ) : ∀ c ∈ (spell p).head?, c = σ.sep := by
  cases p with
  | nil => simp [spell]
  | cons n p => simp [spell]

omit [DecidableEq α] in
/-- A directory below the root shares its name with the entries beside it that start with it. -/
theorem sharesName_singleton {n m : PathName σ} {p : CanonPath σ} :
    SharesName [n] (m :: p) ↔ n ≠ m ∧ n.text <+: m.text := by
  constructor
  · rintro ⟨parent, name, other, rest, hdir, hp, hne, hstarts⟩
    obtain ⟨rfl, hname⟩ := List.append_eq_singleton_iff.mp hdir.symm |>.resolve_right (by simp)
    obtain ⟨rfl, rfl⟩ := List.cons.inj hp
    obtain rfl := List.singleton_inj.mp hname
    exact ⟨hne, hstarts⟩
  · rintro ⟨hne, hstarts⟩
    exact ⟨[], n, m, p, rfl, rfl, hne, hstarts⟩

omit [DecidableEq α] in
/-- Directories further down share their names only after the same first name. -/
theorem sharesName_cons {n m : PathName σ} {dir p : CanonPath σ} (hdir : dir ≠ []) :
    SharesName (n :: dir) (m :: p) ↔ n = m ∧ SharesName dir p := by
  constructor
  · rintro ⟨parent, name, other, rest, hsplit, hp, hne, hstarts⟩
    cases parent with
    | nil => simp_all
    | cons k parent =>
      rw [List.cons_append] at hsplit hp
      obtain ⟨rfl, rfl⟩ := List.cons.inj hsplit
      obtain ⟨rfl, rfl⟩ := List.cons.inj hp
      exact ⟨rfl, parent, name, other, rest, rfl, rfl, hne, hstarts⟩
  · rintro ⟨rfl, parent, name, other, rest, rfl, rfl, hne, hstarts⟩
    exact ⟨n :: parent, name, other, rest, rfl, rfl, hne, hstarts⟩

omit [DecidableEq α] in
/-- The spelling of one path starts that of another exactly when the other lies below it or
shares its last name. -/
theorem spell_prefix_iff {dir p : CanonPath σ} (hdir : dir ≠ []) :
    spell dir <+: spell p ↔ dir <+: p ∨ SharesName dir p := by
  have hspell (n : PathName σ) (p : CanonPath σ) :
      spell (n :: p) = σ.sep :: (n.text ++ spell p) := by simp [spell]
  induction dir generalizing p with
  | nil => exact absurd rfl hdir
  | cons n dir ih =>
    cases p with
    | nil =>
      have hshares : ¬ SharesName (n :: dir) [] := by
        rintro ⟨_, _, _, _, _, hp, _⟩
        simp at hp
      simp [hshares, spell]
    | cons m p =>
      rw [hspell, hspell, List.cons_prefix_cons, List.cons_prefix_cons]
      cases dir with
      | nil =>
        rw [sharesName_singleton]
        constructor
        · rintro ⟨_, h⟩
          have hstarts : n.text <+: m.text :=
            prefix_of_sepFree n.isName.2.1 (head_spell p) (by simpa [spell] using h)
          by_cases hnm : n = m
          · exact Or.inl ⟨hnm, List.nil_prefix⟩
          · exact Or.inr ⟨hnm, hstarts⟩
        · rintro (⟨rfl, _⟩ | ⟨_, hstarts⟩)
          · simp [spell]
          · exact ⟨rfl, by simpa [spell] using hstarts.trans (List.prefix_append _ _)⟩
      | cons k dir =>
        rw [sharesName_cons (by simp), ← and_or_left]
        have hbelow : spell (k :: dir) <+: spell p ↔ k :: dir <+: p ∨ SharesName (k :: dir) p :=
          ih (by simp)
        rw [← hbelow]
        constructor
        · rintro ⟨_, h⟩
          rw [hspell k dir] at h ⊢
          obtain ⟨htext, hrest⟩ := prefix_of_sep n.isName.2.1 m.isName.2.1 (head_spell p) h
          exact ⟨PathName.ext htext, hrest⟩
        · rintro ⟨rfl, h⟩
          exact ⟨rfl, (List.prefix_append_right_inj _).mpr h⟩

omit [DecidableEq α] in
/-- The text of one canonical path starts that of another exactly when the other lies below
it or shares its last name. -/
theorem render_prefix_iff {dir p : CanonPath σ} :
    render dir <+: render p ↔ dir <+: p ∨ SharesName dir p := by
  cases dir with
  | nil =>
    have hstarts : @render α σ [] <+: render p := by
      cases p <;> simp [render, spell]
    exact ⟨fun _ => Or.inl List.nil_prefix, fun _ => hstarts⟩
  | cons n dir =>
    cases p with
    | nil =>
      have hname := List.length_pos_of_ne_nil n.isName.1
      have hlong : ¬ render (n :: dir) <+: @render α σ [] := by
        intro h
        have hlength := h.length_le
        simp only [render, spell, List.flatMap_cons, List.length_append, List.length_cons,
          List.length_nil] at hlength
        omega
      have hshares : ¬ SharesName (n :: dir) [] := by
        rintro ⟨_, _, _, _, _, hp, _⟩
        simp at hp
      simp [hlong, hshares]
    | cons m p => exact spell_prefix_iff (by simp)

end Khttp.Lib
