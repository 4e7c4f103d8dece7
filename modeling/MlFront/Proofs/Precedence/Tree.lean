import MlFront.Proofs.Precedence.Operand

/-!
# Operator-precedence trees

An `OperatorTree` joins operands by operators. Read from left to right it is its
first operand and a list of *links*, operators with the operand behind each. In a
`Grouped` tree the operator on top of an operand gives way to the operator that
joins it, as the powers of the two demand.

A chain of operands has at most one grouped tree (`Grouped.eq_of_links`): all
operators on the left of the one on top could be followed by it and all on its right
could not, so no other operator of the chain can be on top. A tree grows link by link
from the left, and an operator is put on it with the links that its right operand takes
(`Extends`, `cut_induction`). Between operators of one power the tree is `leftmost`, and
`rightmost` for the power that has no tighter one.
-/

namespace MlFront

/-- A token that the tables make an operator, with its power. -/
structure Operator (tables : Tables) where
  token : Token
  power : Power
  registered : tables.power token.kind = some power

/-- Operands joined by operators. -/
inductive OperatorTree (tables : Tables) (nesting : Nat) where
  | operand (single : Operand tables nesting)
  | join (operator : Operator tables) (left right : OperatorTree tables nesting)

/-- An operator with the operand behind it. -/
abbrev Link (tables : Tables) (nesting : Nat) :=
  Operator tables × Operand tables nesting

/-- The tokens of some links. -/
def linkTokens {tables : Tables} {nesting : Nat} (links : List (Link tables nesting)) :
    List Token :=
  links.flatMap fun link => link.1.token :: link.2.tokens

section Tokens

variable {tables : Tables} {nesting : Nat} (link : Link tables nesting)
  (links more : List (Link tables nesting))

@[simp] theorem linkTokens_nil : linkTokens ([] : List (Link tables nesting)) = [] := rfl

@[simp] theorem linkTokens_cons :
    linkTokens (link :: links) = link.1.token :: (link.2.tokens ++ linkTokens links) := by
  simp [linkTokens]

@[simp] theorem linkTokens_append :
    linkTokens (links ++ more) = linkTokens links ++ linkTokens more := by
  simp [linkTokens]

end Tokens

namespace OperatorTree

variable {tables : Tables} {nesting : Nat}

/-- The syntax tree. -/
def node : OperatorTree tables nesting → Node
  | operand single => single.node
  | join operator left right => .binary operator.token.text left.node right.node

/-- The leftmost operand. -/
def first : OperatorTree tables nesting → Operand tables nesting
  | operand single => single
  | join _ left _ => left.first

/-- The operators from left to right, each with the operand behind it. -/
def links : OperatorTree tables nesting → List (Link tables nesting)
  | operand _ => []
  | join operator left right => left.links ++ (operator, right.first) :: right.links

/-- The operator on top, if the tree is not a single operand. -/
def top? : OperatorTree tables nesting → Option (Operator tables)
  | operand _ => none
  | join operator _ _ => some operator

/-- The operator on top of a left operand could not have taken the one that joins it
into its own right operand, and the operator on top of a right operand is as tight as
a right operand has to be. -/
def Grouped : OperatorTree tables nesting → Prop
  | operand _ => True
  | join operator left right =>
    left.Grouped ∧ right.Grouped ∧
      (∀ top ∈ left.top?, operator.power < top.power.tighter) ∧
      ∀ top ∈ right.top?, ¬ top.power < operator.power.tighter

variable {tree other left right : OperatorTree tables nesting} {operator : Operator tables}
  {link : Link tables nesting}

theorem exists_top (h : link ∈ tree.links) : ∃ top, tree.top? = some top := by
  cases tree with
  | operand => simp [links] at h
  | join operator => exact ⟨operator, rfl⟩

/-- The operator on top is among the operators of the tree. -/
theorem exists_link {top : Operator tables} (h : top ∈ tree.top?) :
    ∃ link ∈ tree.links, link.1 = top := by
  cases tree with
  | operand => simp [top?] at h
  | join operator left right =>
    obtain rfl : operator = top := Option.some.inj h
    exact ⟨(operator, right.first), by simp [links], rfl⟩

/-! ## There is one tree -/

/-- No operator of a grouped tree is looser than the one on top. -/
theorem Grouped.rank_top_le (h : tree.Grouped) :
    ∀ top ∈ tree.top?, ∀ link ∈ tree.links, top.power.rank ≤ link.1.power.rank := by
  induction tree with
  | operand => simp [links]
  | join operator left right ihleft ihright =>
    obtain ⟨hleft, hright, hbefore, hbehind⟩ := h
    rintro _ ⟨⟩ link hlink
    have hrank := operator.power.rank_le
    rcases List.mem_append.mp hlink with hlink | hlink
    · obtain ⟨top, htop⟩ := exists_top hlink
      have hlt := hbefore top htop
      have hle := ihleft hleft top htop link hlink
      rw [Power.lt_iff, Power.rank_tighter] at hlt
      omega
    · rcases List.mem_cons.mp hlink with rfl | hlink
      · exact Nat.le_refl _
      · obtain ⟨top, htop⟩ := exists_top hlink
        have hge := hbehind top htop
        have hle := ihright hright top htop link hlink
        rw [Power.lt_iff, Power.rank_tighter] at hge
        omega

/-- The operator on top could follow all operators on its left. -/
theorem Grouped.lt_of_mem_left (h : (join operator left right).Grouped)
    (hlink : link ∈ left.links) : operator.power < link.1.power.tighter := by
  obtain ⟨hleft, -, hbefore, -⟩ := h
  obtain ⟨top, htop⟩ := exists_top hlink
  have hlt := hbefore top htop
  have hle := hleft.rank_top_le top htop link hlink
  rw [Power.lt_iff, Power.rank_tighter] at hlt ⊢
  omega

/-- No operator on the right of the one on top could follow it. -/
theorem Grouped.not_lt_of_mem_right (h : (join operator left right).Grouped)
    (hlink : link ∈ right.links) : ¬ link.1.power < operator.power.tighter := by
  obtain ⟨-, hright, -, hbehind⟩ := h
  obtain ⟨top, htop⟩ := exists_top hlink
  have hge := hbehind top htop
  have hle := hright.rank_top_le top htop link hlink
  rw [Power.lt_iff, Power.rank_tighter] at hge ⊢
  omega

/-- Of two grouped trees over one chain, the one on top of the first cannot be on
the left of the one on top of the second. -/
theorem Grouped.not_before {operator' : Operator tables}
    {left' right' : OperatorTree tables nesting} (h : (join operator left right).Grouped)
    (h' : (join operator' left' right').Grouped) {between : List (Link tables nesting)}
    (hleft : left'.links = left.links ++ link :: between)
    (hright : (operator, right.first) :: right.links =
      link :: between ++ (operator', right'.first) :: right'.links) : False := by
  obtain ⟨rfl, hmore⟩ := List.cons.inj hright
  have hinleft : (operator, right.first) ∈ left'.links := by simp [hleft]
  have hinright : (operator', right'.first) ∈ right.links := by simp [hmore]
  exact h.not_lt_of_mem_right hinright (h'.lt_of_mem_left hinleft)

/-- Two grouped trees over one chain have the same operator of it on top. -/
theorem Grouped.split_eq {operator' : Operator tables} {left' right' : OperatorTree tables nesting}
    (h : (join operator left right).Grouped) (h' : (join operator' left' right').Grouped)
    (hlinks : (join operator left right).links = (join operator' left' right').links) :
    left.links = left'.links ∧
      (operator, right.first) :: right.links = (operator', right'.first) :: right'.links := by
  rcases List.append_eq_append_iff.mp hlinks with ⟨between, hl, hr⟩ | ⟨between, hl, hr⟩
  · cases between with
    | nil => exact ⟨by simpa using hl.symm, by simpa using hr⟩
    | cons link between => exact (h.not_before h' hl hr).elim
  · cases between with
    | nil => exact ⟨by simpa using hl, by simpa using hr.symm⟩
    | cons link between => exact (h'.not_before h hl hr).elim

/-- A chain of operands has at most one grouped tree. -/
theorem Grouped.eq_of_links (h : tree.Grouped) (hother : other.Grouped)
    (hfirst : tree.first = other.first) (hlinks : tree.links = other.links) : tree = other := by
  induction tree generalizing other with
  | operand =>
    cases other with
    | operand => exact congrArg operand hfirst
    | join => simp [links] at hlinks
  | join operator left right ihleft ihright =>
    cases other with
    | operand => simp [links] at hlinks
    | join operator' left' right' =>
      obtain ⟨hleft, hright⟩ := h.split_eq hother hlinks
      simp only [List.cons.injEq, Prod.mk.injEq] at hright
      obtain ⟨⟨rfl, hbehind⟩, hmore⟩ := hright
      rw [ihleft h.1 hother.1 hfirst hleft, ihright h.2.1 hother.2.1 hbehind hmore]

/-! ## Growing a tree -/

/-- The tree can be built. A single operand is there already. -/
def Fits (tree : OperatorTree tables nesting) : Prop :=
  ∀ top ∈ tree.top?, tree.node.depth ≤ maxDepth

theorem fits_left (h : (join operator left right).Fits) : left.Fits := by
  have hdepth := h operator rfl
  rw [node, Node.depth_binary] at hdepth
  exact fun _ _ => by omega

theorem fits_right (h : (join operator left right).Fits) : right.Fits := by
  have hdepth := h operator rfl
  rw [node, Node.depth_binary] at hdepth
  exact fun _ _ => by omega

/-- The tree is grouped, and it is `left` with some more links put on it. -/
structure Extends (tree left : OperatorTree tables nesting) (links : List (Link tables nesting)) :
    Prop where
  first : tree.first = left.first
  links : tree.links = left.links ++ links
  grouped : tree.Grouped
  fits : tree.Fits → left.Fits

/-- The next link can be put on the tree. -/
def Takes (tree : OperatorTree tables nesting) (links : List (Link tables nesting)) : Prop :=
  ∀ link ∈ links.head?, ∀ top ∈ tree.top?, link.1.power < top.power.tighter

variable {single : Operand tables nesting} {inside more : List (Link tables nesting)}

theorem Extends.refl (h : tree.Grouped) : tree.Extends tree [] :=
  ⟨rfl, (List.append_nil _).symm, h, id⟩

theorem Extends.trans (h : tree.Extends left inside) (h' : other.Extends tree more) :
    other.Extends left (inside ++ more) where
  first := h'.first.trans h.first
  links := by rw [h'.links, h.links, List.append_assoc]
  grouped := h'.grouped
  fits := h.fits ∘ h'.fits

/-- An operator that could follow those on its left is put on top of a right operand
of operators that could not follow it. -/
theorem Extends.join (h : right.Extends (operand single) inside) (hleft : left.Grouped)
    (htakes : left.Takes ((operator, single) :: more))
    (hinside : ∀ link ∈ inside, ¬ link.1.power < operator.power.tighter) :
    (join operator left right).Extends left ((operator, single) :: inside) where
  first := rfl
  links := by simp [OperatorTree.links, h.first, h.links, OperatorTree.first]
  grouped := by
    refine ⟨hleft, h.grouped, htakes _ rfl, fun top htop => ?_⟩
    obtain ⟨link, hlink, rfl⟩ := exists_link htop
    rw [h.links] at hlink
    exact hinside link hlink
  fits := fits_left

/-- Links are taken from the left: after an operator those that belong to its right
operand, up to the first that is not tight enough, and then the others. -/
theorem cut_induction {motive : List (Link tables nesting) → Prop} (nil : motive [])
    (cons : ∀ (operator : Operator tables) (single : Operand tables nesting)
      (inside outside : List (Link tables nesting)),
      (∀ link ∈ inside, ¬ link.1.power < operator.power.tighter) →
      (∀ link ∈ outside.head?, link.1.power < operator.power.tighter) →
      motive inside → motive outside → motive ((operator, single) :: (inside ++ outside)))
    (links : List (Link tables nesting)) : motive links := by
  induction hn : links.length using Nat.strongRecOn generalizing links with
  | _ n ih =>
    cases links with
    | nil => exact nil
    | cons link more =>
      obtain ⟨operator, single⟩ := link
      let tight : Link tables nesting → Bool := fun link =>
        ¬ link.1.power < operator.power.tighter
      have hcut : more.takeWhile tight ++ more.dropWhile tight = more :=
        List.takeWhile_append_dropWhile
      have hlength := congrArg List.length hcut
      simp only [List.length_append] at hlength
      simp only [List.length_cons] at hn
      rw [← hcut]
      refine cons operator single _ _ (fun link h => ?_) (fun link h => ?_)
        (ih _ (by omega) _ rfl) (ih _ (by omega) _ rfl)
      · simpa [tight] using List.mem_takeWhile_imp h
      · have hstop := List.head?_dropWhile_not tight more
        rw [h] at hstop
        simpa [tight] using hstop

/-! ## Operators of one power -/

/-- The tree in which every right operand is a single one. -/
def leftmost (first : Operand tables nesting) (links : List (Link tables nesting)) :
    OperatorTree tables nesting :=
  links.foldl (fun left link => join link.1 left (operand link.2)) (operand first)

/-- The tree in which every left operand is a single one. -/
def rightmost (first : Operand tables nesting) :
    List (Link tables nesting) → OperatorTree tables nesting
  | [] => operand first
  | link :: more => join link.1 (operand first) (rightmost link.2 more)

section OnePower

variable {power : Power} (first : Operand tables nesting)

/-- Single operands are joined to a tree one after the other. -/
theorem grouped_foldl (hpower : power ≠ .primary) (tree : OperatorTree tables nesting)
    (hgrouped : tree.Grouped) (htop : ∀ top ∈ tree.top?, top.power = power)
    (links : List (Link tables nesting))
    (hlinks : ∀ link ∈ links, link.1.power = power) :
    let whole := links.foldl (fun left link => join link.1 left (operand link.2)) tree
    whole.Grouped ∧ whole.first = tree.first ∧ whole.links = tree.links ++ links := by
  induction links generalizing tree with
  | nil => exact ⟨hgrouped, rfl, (List.append_nil _).symm⟩
  | cons link more ih =>
    have hlink := hlinks link List.mem_cons_self
    have hlt : power < power.tighter := by
      cases power with
      | primary => exact absurd rfl hpower
      | _ => decide
    have hjoin : (join link.1 tree (operand link.2)).Grouped :=
      ⟨hgrouped, trivial, fun top h => by rw [hlink, htop top h]; exact hlt, by simp [top?]⟩
    have hmore := ih _ hjoin (by simp [top?, hlink])
      fun link h => hlinks link (List.mem_cons_of_mem _ h)
    simpa [links, OperatorTree.first] using hmore

theorem grouped_leftmost (hpower : power ≠ .primary) (links : List (Link tables nesting))
    (hlinks : ∀ link ∈ links, link.1.power = power) :
    (leftmost first links).Grouped ∧ (leftmost first links).first = first ∧
      (leftmost first links).links = links :=
  grouped_foldl hpower (operand first) trivial (by simp [top?]) links hlinks

theorem grouped_rightmost (links : List (Link tables nesting))
    (hlinks : ∀ link ∈ links, link.1.power = .primary) :
    (rightmost first links).Grouped ∧ (rightmost first links).first = first ∧
      (rightmost first links).links = links := by
  induction links generalizing first with
  | nil => exact ⟨trivial, rfl, rfl⟩
  | cons link more ih =>
    have hlink := hlinks link List.mem_cons_self
    obtain ⟨hgrouped, hfirst, hmore⟩ :=
      ih link.2 fun link h => hlinks link (List.mem_cons_of_mem _ h)
    refine ⟨⟨trivial, hgrouped, by simp [top?], fun top htop => ?_⟩, rfl, ?_⟩
    · obtain ⟨inside, hinside, rfl⟩ := exists_link htop
      rw [hmore] at hinside
      rw [hlink, hlinks inside (List.mem_cons_of_mem _ hinside)]
      decide
    · simp [rightmost, OperatorTree.links, hfirst, hmore]

end OnePower

end OperatorTree

end MlFront
