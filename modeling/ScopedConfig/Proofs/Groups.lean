import ScopedConfig.Store.Chain

/-!
# Groups of a chain

An expression that puts a chain together can be read as a sequence of groups with the last one as the
current group: another query is a new group, another chain brings its groups along, and parameters and
revisions go to the members of the current group alone (`ReadExpr.groups`, `WriteExpr.groups`). A chain of
reads is one list with a mark in it. It holds the members of the groups in their order, with the mark
where the current group starts (`ReadExpr.chain_holds`). In a chain of writes each group is one assignment,
so that the last one is marked by its place (`WriteExpr.chain_holds`).
-/

namespace ScopedConfig

/-! ## Groups

The groups of an expression say what is meant by it, without a mark and without places in a list.
All members in their order are what a chain has in the end. -/

/-- Lists one after another, the last of which is the current one. -/
structure Groups (α : Type) where
  earlier : List (List α)
  current : List α

namespace Groups

variable {α : Type} {g h : Groups α}

/-- A current group and no other. -/
def single (as : List α) : Groups α := ⟨[], as⟩

def toList (g : Groups α) : List (List α) := g.earlier ++ [g.current]

/-- All members of all groups. -/
def members (g : Groups α) : List α := g.toList.flatten

/-- Changes the members of the current group. -/
def mapCurrent (g : Groups α) (f : α → α) : Groups α := { g with current := g.current.map f }

/-- More groups; their current group becomes the current one. -/
def append (g h : Groups α) : Groups α := ⟨g.toList ++ h.earlier, h.current⟩

theorem members_eq (g : Groups α) : g.members = g.earlier.flatten ++ g.current := by
  simp [members, toList]

@[simp] theorem members_single (as : List α) : (single as).members = as := by
  simp [members_eq, single]

@[simp] theorem members_mapCurrent (g : Groups α) (f : α → α) :
    (g.mapCurrent f).members = g.earlier.flatten ++ g.current.map f := by
  simp [members_eq, mapCurrent]

@[simp] theorem toList_append (g h : Groups α) : (g.append h).toList = g.toList ++ h.toList := by
  simp [append, toList]

@[simp] theorem members_append (g h : Groups α) : (g.append h).members = g.members ++ h.members := by
  simp [members]

end Groups

/-! ## Continuations

An expression goes on link by link. If what a link makes of it depends on its chain alone, so does what
any number of links make of it. -/

theorem chain_foldl_congr {Expr Link Chain : Type} {chain : Expr → Chain} {link : Expr → Link → Expr}
    (alone : ∀ e e' l, chain e = chain e' → chain (link e l) = chain (link e' l)) {e e' : Expr}
    (same : chain e = chain e') (links : List Link) :
    chain (links.foldl link e) = chain (links.foldl link e') := by
  apply List.foldl_rel (r := fun e e' => chain e = chain e') same
  intro l _ e e' same
  exact alone e e' l same

/-! ## Chains of reads

A chain of reads keeps one list for all groups and remembers where the current one starts. So what
is done to the members behind the mark is done to the current group, and adding a chain moves the
mark by the length of the list before it. -/

/-- How a chain of reads is written. -/
inductive ReadExpr where
  | get (name : String)
  | getMany (names : List String)
  | withParameters (e : ReadExpr) (params : List Parameter)
  | atRevision (e : ReadExpr) (n : Revision)
  | andGet (e : ReadExpr) (name : String)
  | and (e d : ReadExpr)

namespace ReadExpr

/-- The chain that is put together. -/
def chain : ReadExpr → ReadChain
  | get name => .start [name]
  | getMany names => .start names
  | withParameters e params => e.chain.withParameters params
  | atRevision e n => e.chain.atRevision n
  | andGet e name => e.chain.andGet name
  | and e d => e.chain.and d.chain

/-- The groups that are meant. -/
def groups : ReadExpr → Groups Query
  | get name => .single [⟨name, [], none⟩]
  | getMany names => .single (names.map fun name => ⟨name, [], none⟩)
  | withParameters e params => e.groups.mapCurrent fun q => { q with params := q.params ++ params }
  | atRevision e n => e.groups.mapCurrent fun q => { q with revision := some n }
  | andGet e name => e.groups.append (.single [⟨name, [], none⟩])
  | and e d => e.groups.append d.groups

end ReadExpr

namespace ReadChain

variable {c d : ReadChain} {g h : Groups Query}

/-- The chain has the members of the groups one after another, those of the current group from its mark
on. -/
structure Holds (c : ReadChain) (g : Groups Query) : Prop where
  queries : c.queries = g.members
  groupStart : c.groupStart = g.earlier.flatten.length

namespace Holds

/-- The first group starts at the front. -/
theorem start (names : List String) : (ReadChain.start names).Holds (.single (names.map query)) where
  queries := (Groups.members_single _).symm
  groupStart := rfl

/-- What is done from the mark on is done to the current group. -/
theorem mapGroup (holds : c.Holds g) (f : Query → Query) : (c.mapGroup f).Holds (g.mapCurrent f) where
  queries := by
    simp [ReadChain.mapGroup, holds.queries, holds.groupStart, Groups.members_eq g]
  groupStart := holds.groupStart

/-- **The current group of the added chain becomes the current one**, and its mark counts from the
start of the whole list. -/
theorem and (hc : c.Holds g) (hd : d.Holds h) : (c.and d).Holds (g.append h) where
  queries := by
    simp [ReadChain.and, hc.queries, hd.queries]
  groupStart := by
    simp [ReadChain.and, hc.queries, hd.groupStart, Groups.append, Groups.members]

theorem andGet (holds : c.Holds g) (name : String) :
    (c.andGet name).Holds (g.append (.single [query name])) :=
  holds.and (start [name])

/-- The mark is no farther than the end. -/
theorem groupStart_le (holds : c.Holds g) : c.groupStart ≤ c.queries.length := by
  simp [holds.queries, holds.groupStart, Groups.members_eq]

end Holds

theorem and_assoc (b c d : ReadChain) : (b.and c).and d = b.and (c.and d) := by
  simp [ReadChain.and, Nat.add_assoc]

end ReadChain

namespace ReadExpr

/-- **A chain of reads holds the groups that are meant.** -/
theorem chain_holds (e : ReadExpr) : e.chain.Holds e.groups := by
  induction e with
  | get name => exact .start [name]
  | getMany names => exact .start names
  | withParameters e params ih => exact ih.mapGroup _
  | atRevision e n ih => exact ih.mapGroup _
  | andGet e name ih => exact ih.andGet name
  | and e d he hd => exact he.and hd

/-- Parameters go to the current group, which here is the last one of the chain added. -/
example : (((get "a").and ((get "b").andGet "c")).withParameters [⟨"env", .exactly "prod"⟩]).chain =
    ⟨[⟨"a", [], none⟩, ⟨"b", [], none⟩, ⟨"c", [⟨"env", .exactly "prod"⟩], none⟩], 2⟩ := by
  decide

theorem operations_chain (e : ReadExpr) : e.chain.operations = e.groups.members.map .read := by
  rw [ReadChain.operations, e.chain_holds.queries]

/-! ### Links -/

/-- What may be done with a chain next; it may also be added to another one. -/
inductive Link where
  | withParameters (params : List Parameter)
  | atRevision (n : Revision)
  | andGet (name : String)
  | and (d : ReadExpr)
  | addTo (d : ReadExpr)

def link (e : ReadExpr) : Link → ReadExpr
  | .withParameters params => e.withParameters params
  | .atRevision n => e.atRevision n
  | .andGet name => e.andGet name
  | .and d => e.and d
  | .addTo d => d.and e

/-- An expression goes on. -/
def continued (e : ReadExpr) (links : List Link) : ReadExpr := links.foldl link e

/-- **It makes no difference how chains are nested**, however the chain goes on. -/
theorem chain_and_assoc (a b c : ReadExpr) (links : List Link) :
    (((a.and b).and c).continued links).chain = ((a.and (b.and c)).continued links).chain := by
  apply chain_foldl_congr
  · intro e e' l same
    cases l <;> simp [link, chain, same]
  · exact ReadChain.and_assoc a.chain b.chain c.chain

end ReadExpr

/-! ## Chains of writes

A chain of writes has no mark: its parameters go to the last assignment. That is the current group
as long as each group is of one assignment, which every way of putting a chain together keeps. -/

/-- How a chain of writes is written. -/
inductive WriteExpr where
  | set (name : String) (value : Value)
  | withParameters (e : WriteExpr) (params : List Parameter)
  | andSet (e : WriteExpr) (name : String) (value : Value)
  | and (e d : WriteExpr)

namespace WriteExpr

/-- The chain that is put together. -/
def chain : WriteExpr → WriteChain
  | set name value => .start name value
  | withParameters e params => e.chain.withParameters params
  | andSet e name value => e.chain.andSet name value
  | and e d => e.chain.and d.chain

/-- The groups that are meant. -/
def groups : WriteExpr → Groups Assignment
  | set name value => .single [⟨name, value, []⟩]
  | withParameters e params => e.groups.mapCurrent fun a => { a with params := a.params ++ params }
  | andSet e name value => e.groups.append (.single [⟨name, value, []⟩])
  | and e d => e.groups.append d.groups

end WriteExpr

namespace WriteChain

variable {c d : WriteChain} {g h : Groups Assignment}

/-- The chain has the members of the groups one after another, each of which is a group of its own. -/
structure Holds (c : WriteChain) (g : Groups Assignment) : Prop where
  assignments : c.assignments = g.members
  length_eq_one : ∀ group ∈ g.toList, group.length = 1

namespace Holds

theorem start (name : String) (value : Value) :
    (WriteChain.start name value).Holds (.single [⟨name, value, []⟩]) where
  assignments := (Groups.members_single _).symm
  length_eq_one := by simp [Groups.single, Groups.toList]

/-- The last assignment is the current group, as this is a group of one. -/
theorem withParameters (holds : c.Holds g) (params : List Parameter) :
    (c.withParameters params).Holds (g.mapCurrent fun a => { a with params := a.params ++ params }) where
  assignments := by
    obtain ⟨a, current⟩ := List.length_eq_one_iff.mp
      (holds.length_eq_one g.current (by simp [Groups.toList]))
    simp [WriteChain.withParameters, holds.assignments, Groups.members_eq g, current]
  length_eq_one := by
    intro group mem
    have lengths := holds.length_eq_one
    simp only [Groups.toList, Groups.mapCurrent, List.mem_append, List.mem_singleton] at mem lengths
    rcases mem with mem | rfl
    · exact lengths group (.inl mem)
    · rw [List.length_map]
      exact lengths g.current (.inr rfl)

theorem and (hc : c.Holds g) (hd : d.Holds h) : (c.and d).Holds (g.append h) where
  assignments := by simp [WriteChain.and, hc.assignments, hd.assignments]
  length_eq_one := by
    intro group mem
    rw [Groups.toList_append, List.mem_append] at mem
    exact mem.elim (hc.length_eq_one group) (hd.length_eq_one group)

theorem andSet (holds : c.Holds g) (name : String) (value : Value) :
    (c.andSet name value).Holds (g.append (.single [⟨name, value, []⟩])) :=
  holds.and (start name value)

end Holds

theorem and_assoc (b c d : WriteChain) : (b.and c).and d = b.and (c.and d) := by
  simp [WriteChain.and]

end WriteChain

namespace WriteExpr

/-- **A chain of writes holds the groups that are meant**, of one assignment each. -/
theorem chain_holds (e : WriteExpr) : e.chain.Holds e.groups := by
  induction e with
  | set name value => exact .start name value
  | withParameters e params ih => exact ih.withParameters params
  | andSet e name value ih => exact ih.andSet name value
  | and e d he hd => exact he.and hd

theorem operations_chain (e : WriteExpr) : e.chain.operations = e.groups.members.map .assign := by
  rw [WriteChain.operations, e.chain_holds.assignments]

/-! ### Links -/

/-- What may be done with a chain next; it may also be added to another one. -/
inductive Link where
  | withParameters (params : List Parameter)
  | andSet (name : String) (value : Value)
  | and (d : WriteExpr)
  | addTo (d : WriteExpr)

def link (e : WriteExpr) : Link → WriteExpr
  | .withParameters params => e.withParameters params
  | .andSet name value => e.andSet name value
  | .and d => e.and d
  | .addTo d => d.and e

/-- An expression goes on. -/
def continued (e : WriteExpr) (links : List Link) : WriteExpr := links.foldl link e

/-- **It makes no difference how chains are nested**, however the chain goes on. -/
theorem chain_and_assoc (a b c : WriteExpr) (links : List Link) :
    (((a.and b).and c).continued links).chain = ((a.and (b.and c)).continued links).chain := by
  apply chain_foldl_congr
  · intro e e' l same
    cases l <;> simp [link, chain, same]
  · exact WriteChain.and_assoc a.chain b.chain c.chain

end WriteExpr

end ScopedConfig
