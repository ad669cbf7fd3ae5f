import Mcfunction.Grammar.Bundled
import Mcfunction.Proofs.Line
import Mcfunction.Proofs.Stage

/-! Reading a command is a search. Its branches are stated as a relation, without the order in which they are tried, and
each is named by the places of the children it takes, so that tree order is the lexicographic order of names. Main
statement: the reader answers with the first branch that completes, and if none does, with the error of a branch that no
branch fails behind. -/

namespace Mcfunction.Parser

open List Cursor Bool Except SyntaxError

variable {pending : Pending} {c : Cursor} {B : List Nat → Except SyntaxError (Node × Cursor) → Prop}

def OpensBlock (owner : CommandTree) (c : Cursor) : Prop :=
  c.peek = some ':' ∧ ∃ entry ∈ owner.children, isBlock entry = true

instance (owner : CommandTree) (c : Cursor) : Decidable (OpensBlock owner c) :=
  inferInstanceAs (Decidable (c.peek = some ':' ∧ ∃ entry ∈ owner.children, isBlock entry = true))

/-- A branch of the search from a stage on: the places of the children that it takes among the children
of their nodes, and the command it ends with or the error it fails with. -/
inductive Branch (p : Parser) (indent : Option Nat) :
    Stage → Cursor → List Nat → Except SyntaxError (Node × Cursor) → Prop where
  | literal {owner pending c child ks r} (hword : literal? owner c = some child)
      (rest : Branch p indent (.after child (pending.literal c.word)) (c.drop c.wordLength) ks r) :
      Branch p indent (.child owner pending) c ks r
  | refused {owner pending c i entry e} (hword : literal? owner c = none)
      (hentry : owner.children[i]? = some entry) (harg : isArgument entry = true)
      (hread : p.argumentOutcome indent entry.2 c = .error e) :
      Branch p indent (.child owner pending) c [i] (.error e)
  | accepted {owner pending c i entry value d ks r} (hword : literal? owner c = none)
      (hentry : owner.children[i]? = some entry) (harg : isArgument entry = true)
      (hread : p.argumentOutcome indent entry.2 c = .ok (value, d))
      (rest : Branch p indent (.after entry.2 (pending.argument entry.1 value)) d ks r) :
      Branch p indent (.child owner pending) c (i :: ks) r
  | unknown {owner pending c} (hword : literal? owner c = none)
      (hnone : ∀ entry ∈ owner.children, isArgument entry = false) :
      Branch p indent (.child owner pending) c [] (.error (unexpectedHere owner pending c))
  | childless {owner pending c} (hnil : owner.children = []) :
      Branch p indent (.follow owner pending) c []
        (.error ⟨if c.atLineEnd then .incompleteCommand else .expected "end of line", c.spanHere⟩)
  | blockRefused {owner pending c i entry e} (hcolon : c.peek = some ':')
      (hentry : owner.children[i]? = some entry) (hblock : isBlock entry = true)
      (hread : p.argumentOutcome indent entry.2 c = .error e) :
      Branch p indent (.follow owner pending) c [i] (.error e)
  | blockAccepted {owner pending c i entry value d ks r} (hcolon : c.peek = some ':')
      (hentry : owner.children[i]? = some entry) (hblock : isBlock entry = true)
      (hread : p.argumentOutcome indent entry.2 c = .ok (value, d))
      (rest : Branch p indent (.after entry.2 (pending.argument entry.1 value)) d ks r) :
      Branch p indent (.follow owner pending) c (i :: ks) r
  | ended {owner pending c} (hcons : owner.children ≠ []) (hblock : ¬OpensBlock owner c)
      (hend : c.atLineEnd = true) :
      Branch p indent (.follow owner pending) c [] (.error ⟨.incompleteCommand, c.spanHere⟩)
  | unseparated {owner pending c e} (hcons : owner.children ≠ []) (hblock : ¬OpensBlock owner c)
      (hend : c.atLineEnd = false) (hgap : gap c = .error e) :
      Branch p indent (.follow owner pending) c [] (.error e)
  | separated {owner pending c d ks r} (hcons : owner.children ≠ []) (hblock : ¬OpensBlock owner c)
      (hend : c.atLineEnd = false) (hgap : gap c = .ok d)
      (rest : Branch p indent (.child owner pending) d ks r) :
      Branch p indent (.follow owner pending) c ks r
  | complete {node pending c} (hstop : (c.atLineEnd && node.executable) = true) :
      Branch p indent (.after node pending) c [] (.ok (pending.finish c, c))
  | next {node pending c ks r} (hgo : (c.atLineEnd && node.executable) = false)
      (hred : node.redirect? = none) (rest : Branch p indent (.follow node pending) c ks r) :
      Branch p indent (.after node pending) c ks r
  | aliased {node pending c path target ks r} (hgo : (c.atLineEnd && node.executable) = false)
      (hred : node.redirect? = some path) (htarget : p.tree.at? path = some target)
      (hsub : target.subcommand = false) (rest : Branch p indent (.follow target pending) c ks r) :
      Branch p indent (.after node pending) c ks r
  | unresolved {node pending c path} (hgo : (c.atLineEnd && node.executable) = false)
      (hred : node.redirect? = some path) (htarget : p.tree.at? path = none) :
      Branch p indent (.after node pending) c [] (.error ⟨.unresolvedRedirect path, c.spanHere⟩)
  | subcommandEnded {node pending c path target} (hgo : (c.atLineEnd && node.executable) = false)
      (hred : node.redirect? = some path) (htarget : p.tree.at? path = some target)
      (hsub : target.subcommand = true) (hend : c.atLineEnd = true) :
      Branch p indent (.after node pending) c [] (.error ⟨.incompleteCommand, c.spanHere⟩)
  | subcommandUnseparated {node pending c path target e} (hgo : (c.atLineEnd && node.executable) = false)
      (hred : node.redirect? = some path) (htarget : p.tree.at? path = some target)
      (hsub : target.subcommand = true) (hend : c.atLineEnd = false) (hgap : gap c = .error e) :
      Branch p indent (.after node pending) c [] (.error e)
  | subcommand {node pending c path target d ks r} (hgo : (c.atLineEnd && node.executable) = false)
      (hred : node.redirect? = some path) (htarget : p.tree.at? path = some target)
      (hsub : target.subcommand = true) (hend : c.atLineEnd = false) (hgap : gap c = .ok d)
      (rest : Branch p indent (.child target { scope := path, start := d.location }) d ks r) :
      Branch p indent (.after node pending) c ks (r.map (around pending))

/-! ### The branches of each stage -/

/-- The branches that are left once a child was chosen to read the next part. -/
def Behind (p : Parser) (indent : Option Nat) (pending : Pending) (c : Cursor) (entry : String × CommandTree)
    (ks : List Nat) (r : Except SyntaxError (Node × Cursor)) : Prop :=
  match p.argumentOutcome indent entry.2 c with
  | .error e => ks = [] ∧ r = .error e
  | .ok (value, d) => Branch p indent (.after entry.2 (pending.argument entry.1 value)) d ks r

def Choice (p : Parser) (indent : Option Nat) (q : String × CommandTree → Bool) (owner : CommandTree)
    (pending : Pending) (c : Cursor) (ks : List Nat) (r : Except SyntaxError (Node × Cursor)) : Prop :=
  ∃ i entry ks', owner.children[i]? = some entry ∧ q entry = true ∧ ks = i :: ks' ∧
    Behind p indent pending c entry ks' r

variable {p : Parser} {indent : Option Nat} {ks : List Nat} {r : Except SyntaxError (Node × Cursor)}

variable {owner node : CommandTree} {stage : Stage} {d : Cursor}

theorem branch_child :
    Branch p indent (.child owner pending) c ks r ↔
      match literal? owner c with
      | some child => Branch p indent (.after child (pending.literal c.word)) (c.drop c.wordLength) ks r
      | none => Choice p indent isArgument owner pending c ks r ∨
          (∀ entry ∈ owner.children, isArgument entry = false) ∧ ks = [] ∧
            r = .error (unexpectedHere owner pending c) := by
  constructor
  · intro h
    cases h with
    | literal hword rest => rwa [hword]
    | refused hword hentry harg hread =>
      rw [hword]
      exact .inl ⟨_, _, [], hentry, harg, rfl, by rw [Behind, hread]; exact ⟨rfl, rfl⟩⟩
    | accepted hword hentry harg hread rest =>
      rw [hword]
      exact .inl ⟨_, _, _, hentry, harg, rfl, by rw [Behind, hread]; exact rest⟩
    | unknown hword hnone =>
      rw [hword]
      exact .inr ⟨hnone, rfl, rfl⟩
  · intro h
    cases hword : literal? owner c with
    | some child =>
      rw [hword] at h
      exact .literal hword h
    | none =>
      rw [hword] at h
      rcases h with ⟨i, entry, ks', hentry, harg, rfl, hbehind⟩ | ⟨hnone, rfl, rfl⟩
      · rw [Behind] at hbehind
        cases hread : p.argumentOutcome indent entry.2 c with
        | error e =>
          rw [hread] at hbehind
          obtain ⟨rfl, rfl⟩ := hbehind
          exact .refused hword hentry harg hread
        | ok x =>
          rw [hread] at hbehind
          exact .accepted hword hentry harg hread hbehind
      · exact .unknown hword hnone

theorem branch_follow :
    Branch p indent (.follow owner pending) c ks r ↔
      if owner.children.isEmpty then
        ks = [] ∧
          r = .error ⟨if c.atLineEnd then .incompleteCommand else .expected "end of line", c.spanHere⟩
      else if OpensBlock owner c then Choice p indent isBlock owner pending c ks r
      else if c.atLineEnd then ks = [] ∧ r = .error ⟨.incompleteCommand, c.spanHere⟩
      else
        match gap c with
        | .error e => ks = [] ∧ r = .error e
        | .ok d => Branch p indent (.child owner pending) d ks r := by
  have cons_of {i : Nat} {entry : String × CommandTree} (hentry : owner.children[i]? = some entry) :
      ¬(owner.children.isEmpty = true) := by
    intro hnil
    rw [isEmpty_iff.1 hnil] at hentry
    cases hentry
  have opens_of {i : Nat} {entry : String × CommandTree} (hcolon : c.peek = some ':')
      (hentry : owner.children[i]? = some entry) (hblock : isBlock entry = true) : OpensBlock owner c :=
    ⟨hcolon, entry, mem_of_getElem? hentry, hblock⟩
  constructor
  · intro h
    cases h with
    | childless hnil =>
      rw [if_pos (isEmpty_iff.2 hnil)]
      exact ⟨rfl, rfl⟩
    | blockRefused hcolon hentry hblock hread =>
      rw [if_neg (cons_of hentry), if_pos (opens_of hcolon hentry hblock)]
      exact ⟨_, _, [], hentry, hblock, rfl, by rw [Behind, hread]; exact ⟨rfl, rfl⟩⟩
    | blockAccepted hcolon hentry hblock hread rest =>
      rw [if_neg (cons_of hentry), if_pos (opens_of hcolon hentry hblock)]
      exact ⟨_, _, _, hentry, hblock, rfl, by rw [Behind, hread]; exact rest⟩
    | ended hcons hblock hend =>
      rw [if_neg (mt List.isEmpty_iff.1 hcons), if_neg hblock, if_pos hend]
      exact ⟨rfl, rfl⟩
    | unseparated hcons hblock hend hgap =>
      rw [if_neg (mt List.isEmpty_iff.1 hcons), if_neg hblock, if_neg (by rw [hend]; exact false_ne_true), hgap]
      exact ⟨rfl, rfl⟩
    | separated hcons hblock hend hgap rest =>
      rw [if_neg (mt List.isEmpty_iff.1 hcons), if_neg hblock, if_neg (by rw [hend]; exact false_ne_true), hgap]
      exact rest
  · intro h
    split at h
    · rename_i hnil
      obtain ⟨rfl, rfl⟩ := h
      exact .childless (isEmpty_iff.1 hnil)
    · rename_i hcons
      have hcons : owner.children ≠ [] := mt isEmpty_iff.2 hcons
      split at h
      · rename_i hopens
        obtain ⟨i, entry, ks', hentry, hblock, rfl, hbehind⟩ := h
        rw [Behind] at hbehind
        cases hread : p.argumentOutcome indent entry.2 c with
        | error e =>
          rw [hread] at hbehind
          obtain ⟨rfl, rfl⟩ := hbehind
          exact .blockRefused hopens.1 hentry hblock hread
        | ok x =>
          rw [hread] at hbehind
          exact .blockAccepted hopens.1 hentry hblock hread hbehind
      · rename_i hopens
        split at h
        · rename_i hend
          obtain ⟨rfl, rfl⟩ := h
          exact .ended hcons hopens hend
        · rename_i hend
          have hend : c.atLineEnd = false := not_eq_true _ ▸ hend
          cases hgap : gap c with
          | error e =>
            rw [hgap] at h
            obtain ⟨rfl, rfl⟩ := h
            exact .unseparated hcons hopens hend hgap
          | ok d =>
            rw [hgap] at h
            exact .separated hcons hopens hend hgap h

theorem branch_after :
    Branch p indent (.after node pending) c ks r ↔
      if c.atLineEnd && node.executable then ks = [] ∧ r = .ok (pending.finish c, c)
      else
        match node.redirect? with
        | none => Branch p indent (.follow node pending) c ks r
        | some path =>
          match p.tree.at? path with
          | none => ks = [] ∧ r = .error ⟨.unresolvedRedirect path, c.spanHere⟩
          | some target =>
            if target.subcommand then
              if c.atLineEnd then ks = [] ∧ r = .error ⟨.incompleteCommand, c.spanHere⟩
              else
                match gap c with
                | .error e => ks = [] ∧ r = .error e
                | .ok d => ∃ inner, r = inner.map (around pending) ∧
                    Branch p indent (.child target { scope := path, start := d.location }) d ks inner
            else Branch p indent (.follow target pending) c ks r := by
  constructor
  · intro h
    cases h with
    | complete hstop => simp [hstop]
    | next hgo hred rest => simpa [hgo, hred] using rest
    | aliased hgo hred htarget hsub rest => simpa [hgo, hred, htarget, hsub] using rest
    | unresolved hgo hred htarget => simp [hgo, hred, htarget]
    | subcommandEnded hgo hred htarget hsub hend =>
      rw [if_neg (by rw [hgo]; exact false_ne_true), hred]
      simp [htarget, hsub, hend]
    | subcommandUnseparated hgo hred htarget hsub hend hgap =>
      rw [if_neg (by rw [hgo]; exact false_ne_true), hred]
      simp [htarget, hsub, hend, hgap]
    | subcommand hgo hred htarget hsub hend hgap rest =>
      rw [if_neg (by rw [hgo]; exact false_ne_true), hred]
      simp only [htarget, hsub, hend, hgap, if_true]
      exact ⟨_, rfl, rest⟩
  · intro h
    split at h
    · rename_i hstop
      obtain ⟨rfl, rfl⟩ := h
      exact .complete hstop
    · rename_i hgo
      have hgo : (c.atLineEnd && node.executable) = false := not_eq_true _ ▸ hgo
      split at h
      · rename_i hred
        exact .next hgo hred h
      · rename_i hred
        split at h
        · rename_i htarget
          obtain ⟨rfl, rfl⟩ := h
          exact .unresolved hgo hred htarget
        · rename_i htarget
          split at h
          · rename_i hsub
            split at h
            · rename_i hend
              obtain ⟨rfl, rfl⟩ := h
              exact .subcommandEnded hgo hred htarget hsub hend
            · rename_i hend
              have hend : c.atLineEnd = false := not_eq_true _ ▸ hend
              split at h
              · rename_i hgap
                obtain ⟨rfl, rfl⟩ := h
                exact .subcommandUnseparated hgo hred htarget hsub hend hgap
              · rename_i hgap
                obtain ⟨inner, rfl, rest⟩ := h
                exact .subcommand hgo hred htarget hsub hend hgap rest
          · rename_i hsub
            exact .aliased hgo hred htarget (not_eq_true _ ▸ hsub) h

/-! ### What the search answers -/

/-- The answer to a search over some branches: the result of the first branch that completes, or else the
error of a branch, behind which no other fails if `far` holds. -/
def Answers (far : Prop) (branches : List Nat → Except SyntaxError (Node × Cursor) → Prop) :
    Except SyntaxError (Node × Cursor) → Prop
  | .ok x => ∃ ks, branches ks (.ok x) ∧ ∀ ks' x', branches ks' (.ok x') → ks < ks' ∨ ks' = ks ∧ x' = x
  | .error e => (∀ ks x, ¬branches ks (.ok x)) ∧ (∃ ks, branches ks (.error e)) ∧
      (far → ∀ ks e', branches ks (.error e') → e'.span.start.offset ≤ e.span.start.offset)

variable {far : Prop} {entry : String × CommandTree} {e : SyntaxError}

theorem Answers.congr {B' : List Nat → Except SyntaxError (Node × Cursor) → Prop} (h : ∀ ks r, B' ks r ↔ B ks r)
    (hB : Answers far B r) : Answers far B' r := by
  rwa [show B' = B from funext fun ks => funext fun r => propext (h ks r)]

theorem Answers.some_branch (h : Answers far B r) : ∃ ks, B ks r := by
  cases r with
  | ok x => exact ⟨h.choose, h.choose_spec.1⟩
  | error e => exact h.2.1

theorem Answers.single : Answers far (fun ks r' => ks = [] ∧ r' = r) r := by
  cases r with
  | ok x =>
    refine ⟨[], ⟨rfl, rfl⟩, ?_⟩
    rintro ks' x' ⟨rfl, hx⟩
    exact .inr ⟨rfl, ok.inj hx⟩
  | error e =>
    refine ⟨?_, ⟨[], rfl, rfl⟩, ?_⟩
    · rintro ks x ⟨-, hx⟩
      cases hx
    · rintro - ks e' ⟨-, he⟩
      rw [error.inj he]

theorem Answers.map (hB : Answers far B r) (g : Node × Cursor → Node × Cursor) :
    Answers far (fun ks r' => ∃ inner, r' = inner.map g ∧ B ks inner) (r.map g) := by
  have ok_of : ∀ {inner : Except SyntaxError (Node × Cursor)} {x}, .ok x = inner.map g →
      ∃ y, inner = .ok y ∧ x = g y := by
    intro inner x hx
    cases inner with
    | error e => cases hx
    | ok y => exact ⟨y, rfl, ok.inj hx⟩
  cases r with
  | ok x =>
    obtain ⟨ks, hks, hfirst⟩ := hB
    refine ⟨ks, ⟨.ok x, rfl, hks⟩, ?_⟩
    rintro ks' x' ⟨inner, hx', hinner⟩
    obtain ⟨y, rfl, rfl⟩ := ok_of hx'
    rcases hfirst ks' y hinner with hlt | ⟨heq, rfl⟩
    · exact .inl hlt
    · exact .inr ⟨heq, rfl⟩
  | error e =>
    obtain ⟨hnone, ⟨ks, hks⟩, hmax⟩ := hB
    refine ⟨?_, ⟨ks, .error e, rfl, hks⟩, ?_⟩
    · rintro ks' x ⟨inner, hx, hinner⟩
      obtain ⟨y, rfl, -⟩ := ok_of hx
      exact hnone ks' y hinner
    · rintro hfar ks' e' ⟨inner, he', hinner⟩
      cases inner with
      | ok y => cases he'
      | error e'' =>
        rw [error.inj he']
        exact hmax hfar ks' e'' hinner

/-! ### Choosing among children -/

section Choosing

variable {α β ε : Type} {combine : ε → ε → ε} {f : α → Except ε β} {q : α → Bool} {l : List α}

/-- What comes out of a choice: the first success, or all errors put together. -/
inductive Chosen (combine : ε → ε → ε) (f : α → Except ε β) : List α → Except ε β → Prop where
  | found {a rest b} (ha : f a = .ok b) : Chosen combine f (a :: rest) (.ok b)
  | last {a e} (ha : f a = .error e) : Chosen combine f [a] (.error e)
  | later {a rest e b} (ha : f a = .error e) (hrest : Chosen combine f rest (.ok b)) :
      Chosen combine f (a :: rest) (.ok b)
  | failed {a rest e e'} (ha : f a = .error e) (hrest : Chosen combine f rest (.error e')) :
      Chosen combine f (a :: rest) (.error (combine e e'))

theorem chosen_of_firstOk {r : Except ε β} (h : firstOk combine f l = some r) : Chosen combine f l r := by
  induction l generalizing r with
  | nil => cases h
  | cons a rest ih =>
    rw [firstOk] at h
    cases ha : f a with
    | ok b =>
      rw [ha] at h
      cases h
      exact .found ha
    | error e =>
      rw [ha] at h
      cases hrest : firstOk combine f rest with
      | none =>
        rw [hrest] at h
        cases h
        rw [(firstOk_eq_none combine).1 hrest]
        exact .last ha
      | some r' =>
        rw [hrest] at h
        cases r' <;> cases h
        · exact .failed ha (ih hrest)
        · exact .later ha (ih hrest)

theorem Chosen.selects (hcombine : ∀ a b, combine a b = a ∨ combine a b = b) {r : Except ε β}
    (h : Chosen combine f l r) : ∃ a ∈ l, f a = r := by
  induction h with
  | found ha | last ha => exact ⟨_, mem_cons_self, ha⟩
  | later _ _ ih =>
    obtain ⟨a', ha', hr⟩ := ih
    exact ⟨a', mem_cons_of_mem _ ha', hr⟩
  | @failed a _ e e' ha _ ih =>
    obtain ⟨a', ha', hr⟩ := ih
    rcases hcombine e e' with heq | heq
    · exact ⟨a, mem_cons_self, by rw [ha, heq]⟩
    · exact ⟨a', mem_cons_of_mem _ ha', by rw [hr, heq]⟩

theorem Chosen.ok_first {b : β} (h : Chosen combine f (l.filter q) (.ok b)) :
    ∃ (i : Nat) (a : α), l[i]? = some a ∧ q a = true ∧ f a = .ok b ∧
      ∀ (j : Nat) (a' : α), j < i → l[j]? = some a' → q a' = true → ∃ e, f a' = .error e := by
  induction l with
  | nil => cases h
  | cons a rest ih =>
    obtain ⟨hq, ha⟩ | ⟨ha, hrest⟩ : q a = true ∧ f a = .ok b ∨
        (q a = true → ∃ e, f a = .error e) ∧ Chosen combine f (rest.filter q) (.ok b) := by
      by_cases hq : q a = true
      · rw [filter_cons_of_pos hq] at h
        generalize rest.filter q = others at h ⊢
        cases h with
        | found ha => exact .inl ⟨hq, ha⟩
        | later ha hrest => exact .inr ⟨fun _ => ⟨_, ha⟩, hrest⟩
      · rw [filter_cons_of_neg hq] at h
        exact .inr ⟨fun hqa => absurd hqa hq, h⟩
    · exact ⟨0, a, rfl, hq, ha, fun j _ hj => absurd hj (Nat.not_lt_zero j)⟩
    · obtain ⟨i, a', hi, hqa, hfa, hbefore⟩ := ih hrest
      refine ⟨i + 1, a', hi, hqa, hfa, fun j a'' hj hget hqa'' => ?_⟩
      cases j with
      | zero =>
        cases hget
        exact ha hqa''
      | succ j => exact hbefore j a'' (Nat.lt_of_succ_lt_succ hj) hget hqa''

theorem Chosen.error_le (size : ε → Nat)
    (hcombine : ∀ a b, size a ≤ size (combine a b) ∧ size b ≤ size (combine a b)) {e : ε}
    (h : Chosen combine f l (.error e)) : ∀ a ∈ l, ∃ e', f a = .error e' ∧ size e' ≤ size e := by
  generalize hr : error e = r at h
  induction h generalizing e with
  | found | later => cases hr
  | last ha =>
    cases hr
    exact forall_mem_singleton.2 ⟨_, ha, le_refl _⟩
  | @failed a rest ex er ha _ ih =>
    cases hr
    refine forall_mem_cons.2 ⟨⟨ex, ha, (hcombine ex er).1⟩, fun a' ha' => ?_⟩
    obtain ⟨e', he', hle⟩ := ih rfl a' ha'
    exact ⟨e', he', le_trans hle (hcombine ex er).2⟩

end Choosing

theorem furthest_selects (a b : SyntaxError) : a.furthest b = a ∨ a.furthest b = b := by
  rw [furthest]
  split
  · exact .inr rfl
  · exact .inl rfl

theorem furthest_le (a b : SyntaxError) : a.span.start.offset ≤ (a.furthest b).span.start.offset ∧
      b.span.start.offset ≤ (a.furthest b).span.start.offset := by
  rw [furthest]
  split
  · rename_i hlt
    exact ⟨le_of_lt hlt, le_refl _⟩
  · rename_i hle
    exact ⟨le_refl _, Nat.le_of_not_lt hle⟩

theorem Answers.choose {combine : SyntaxError → SyntaxError → SyntaxError}
    (hcombine : ∀ a b, combine a b = a ∨ combine a b = b) {q : String × CommandTree → Bool} 
    (hbehind : ∀ entry ∈ owner.children, q entry = true →
      Answers far (Behind p indent pending c entry) (p.attempt indent pending c entry))
    (hr : firstOk combine (p.attempt indent pending c) (owner.children.filter q) = some r)
    (hmax : far → ∀ e, r = .error e → ∀ entry ∈ owner.children, q entry = true →
      ∀ e', p.attempt indent pending c entry = .error e' → e'.span.start.offset ≤ e.span.start.offset) :
    Answers far (Choice p indent q owner pending c) r := by
  cases r with
  | ok x =>
    obtain ⟨i, entry, hentry, hq, hx, hbefore⟩ := (chosen_of_firstOk hr).ok_first
    have hhere := hbehind entry (mem_of_getElem? hentry) hq
    rw [hx] at hhere
    obtain ⟨ks, hks, hfirst⟩ := hhere
    refine ⟨i :: ks, ⟨i, entry, ks, hentry, hq, rfl, hks⟩, ?_⟩
    rintro ks' x' ⟨j, entry', ks'', hentry', hq', rfl, hks''⟩
    rcases lt_trichotomy i j with hlt | rfl | hlt
    · exact .inl (cons_lt_cons_iff.2 (.inl hlt))
    · rw [hentry] at hentry'
      cases hentry'
      rcases hfirst ks'' x' hks'' with hlt | ⟨rfl, rfl⟩
      · exact .inl (cons_lt_cons_iff.2 (.inr ⟨rfl, hlt⟩))
      · exact .inr ⟨rfl, rfl⟩
    · obtain ⟨e, he⟩ := hbefore j entry' hlt hentry' hq'
      have hthere := hbehind entry' (mem_of_getElem? hentry') hq'
      rw [he] at hthere
      exact absurd hks'' (hthere.1 ks'' x')
  | error e =>
    have hall : ∀ entry ∈ owner.children, q entry = true →
        ∃ e', p.attempt indent pending c entry = .error e' := by
      intro entry hentry hq
      obtain ⟨e', he', -⟩ := (chosen_of_firstOk hr).error_le (fun _ => 0)
        (fun _ _ => ⟨le_refl _, le_refl _⟩) entry (mem_filter.2 ⟨hentry, hq⟩)
      exact ⟨e', he'⟩
    refine ⟨?_, ?_, ?_⟩
    · rintro ks x ⟨i, entry, ks', hentry, hq, rfl, hks'⟩
      obtain ⟨e', he'⟩ := hall entry (mem_of_getElem? hentry) hq
      have hthere := hbehind entry (mem_of_getElem? hentry) hq
      rw [he'] at hthere
      exact hthere.1 ks' x hks'
    · obtain ⟨entry, hmem, he⟩ := (chosen_of_firstOk hr).selects hcombine
      obtain ⟨hmem, hq⟩ := mem_filter.1 hmem
      have hhere := hbehind entry hmem hq
      rw [he] at hhere
      obtain ⟨ks, hks⟩ := hhere.2.1
      obtain ⟨i, hi⟩ := mem_iff_getElem?.1 hmem
      exact ⟨i :: ks, i, entry, ks, hi, hq, rfl, hks⟩
    · rintro hfar ks e' ⟨i, entry, ks', hentry, hq, rfl, hks'⟩
      have hmem := mem_of_getElem? hentry
      obtain ⟨e'', he''⟩ := hall entry hmem hq
      have hthere := hbehind entry hmem hq
      rw [he''] at hthere
      exact le_trans (hthere.2.2 hfar ks' e' hks') (hmax hfar e rfl entry hmem hq e'' he'')

/-! ### The answer of the reader -/

theorem blockOutcomes_none (h : p.blockOutcomes indent owner pending c = none) : ¬OpensBlock owner c := by
  rintro ⟨hcolon, entry, hmem, hblock⟩
  rw [blockOutcomes, if_pos hcolon, firstOk_eq_none] at h
  have hfilter : entry ∈ owner.children.filter isBlock := mem_filter.2 ⟨hmem, hblock⟩
  rw [h] at hfilter
  cases hfilter

theorem blockOutcomes_some (h : p.blockOutcomes indent owner pending c = some r) : OpensBlock owner c ∧
      firstOk (fun _ e => e) (p.attempt indent pending c) (owner.children.filter isBlock) = some r := by
  rw [blockOutcomes] at h
  split at h
  · rename_i hcolon
    obtain ⟨entry, hmem, -⟩ := (chosen_of_firstOk h).selects (fun _ _ => .inr rfl)
    obtain ⟨hmem, hblock⟩ := mem_filter.1 hmem
    exact ⟨⟨hcolon, entry, hmem, hblock⟩, h⟩
  · cases h

theorem answers_behind (ih : ∀ node pending d, d.remaining < c.remaining →
      Answers far (Branch p indent (.after node pending) d) (p.outcome indent (.after node pending) d)) :
    Answers far (Behind p indent pending c entry) (p.attempt indent pending c entry) := by
  unfold Behind
  rw [attempt]
  cases hread : p.argumentOutcome indent entry.2 c with
  | error e => exact Answers.single
  | ok x => exact ih _ _ _ (argumentOutcome_remaining hread)

/-- The reader answers the search. The error it keeps is one that no other is behind if that is so for the
children that read a block at one colon, of which it keeps the last error. -/
theorem answers_of (far : Prop) (hlast : far → ∀ pending c entry entry' e e', isBlock entry = true →
      isBlock entry' = true → p.attempt indent pending c entry = .error e →
      p.attempt indent pending c entry' = .error e' → e'.span.start.offset ≤ e.span.start.offset)
    (stage : Stage) (c : Cursor) : Answers far (Branch p indent stage c) (p.outcome indent stage c) := by
  refine Stage.induction (P := fun stage c => Answers far (Branch p indent stage c) (p.outcome indent stage c))
    ?_ ?_ ?_ stage c
  · intro owner pending c ih
    refine Answers.congr (fun ks r => branch_child) ?_
    rw [outcome_child]
    cases literal? owner c with
    | some child => exact ih _ _ _ (reaches_drop _ _).remaining_le
    | none =>
      cases hr : firstOk furthest (p.attempt indent pending c) (owner.children.filter isArgument) with
      | some r =>
        obtain ⟨entry, hmem, -⟩ := (chosen_of_firstOk hr).selects furthest_selects
        obtain ⟨hmem, harg⟩ := mem_filter.1 hmem
        refine Answers.congr (B := Choice p indent isArgument owner pending c) ?_ ?_
        · intro ks r
          refine or_iff_left ?_
          rintro ⟨hnone, -⟩
          rw [hnone entry hmem] at harg
          cases harg
        · refine Answers.choose furthest_selects (fun entry _ _ => answers_behind
            fun node pending d hd => ih node pending d (le_of_lt hd)) hr ?_
          rintro - e rfl entry hmem harg e' he'
          obtain ⟨_, he, hle⟩ := (chosen_of_firstOk hr).error_le _ furthest_le _ (mem_filter.2 ⟨hmem, harg⟩)
          rwa [error.inj (he'.symm.trans he)]
      | none =>
        rw [firstOk_eq_none, filter_eq_nil_iff] at hr
        refine Answers.congr ?_ Answers.single
        intro ks r
        constructor
        · rintro (⟨i, entry, ks', hentry, harg, -⟩ | ⟨-, hks, hr⟩)
          · exact absurd harg (hr entry (mem_of_getElem? hentry))
          · exact ⟨hks, hr⟩
        · exact fun h => .inr ⟨fun entry hmem => not_eq_true _ ▸ hr entry hmem, h⟩
  · intro owner pending c ih
    refine Answers.congr (fun ks r => branch_follow) ?_
    rw [outcome_follow]
    split
    · exact Answers.single
    · cases hr : p.blockOutcomes indent owner pending c with
      | some r =>
        obtain ⟨hopens, hr⟩ := blockOutcomes_some hr
        simp only [if_pos hopens]
        refine Answers.choose (fun _ _ => .inr rfl) (fun entry _ _ => answers_behind
          fun node pending d hd => ih _ d hd) hr ?_
        rintro hfar e rfl entry hmem hentry e' he'
        obtain ⟨entry', hmem', he⟩ := (chosen_of_firstOk hr).selects (fun _ _ => .inr rfl)
        exact hlast hfar pending c entry' entry e e' (mem_filter.1 hmem').2 hentry he he'
      | none =>
        simp only [if_neg (blockOutcomes_none hr)]
        split
        · exact Answers.single
        · rw [separated]
          cases hgap : gap c with
          | error e => exact Answers.single
          | ok d => exact ih _ _ (gap_remaining hgap)
  · intro node pending c hfollow ih
    refine Answers.congr (fun ks r => branch_after) ?_
    rw [outcome_after]
    split
    · exact Answers.single
    · cases node.redirect? with
      | none => exact hfollow node
      | some path =>
        dsimp only
        cases p.tree.at? path with
        | none => exact Answers.single
        | some target =>
          dsimp only
          split
          · split
            · exact Answers.single
            · rw [separated]
              cases hgap : gap c with
              | error e => exact Answers.single
              | ok d => exact (ih _ _ (gap_remaining hgap)).map _
          · exact hfollow target

theorem exists_branch (p : Parser) (indent : Option Nat) (stage : Stage) (c : Cursor) :
    ∃ ks, Branch p indent stage c ks (p.outcome indent stage c) :=
  (answers_of False False.elim stage c).some_branch

/-! ### Where blocks end -/

/-- No part of a command can follow: neither a separator nor a colon is next. -/
def Settled (c : Cursor) : Prop := c.peek ≠ some ' ' ∧ c.peek ≠ some ':'

theorem settled_of_atLineEnd (h : c.atLineEnd = true) : Settled c := by
  obtain ⟨rest, l⟩ := c
  rw [atLineEnd] at h
  dsimp only at h
  split at h <;> first
    | exact absurd h false_ne_true
    | exact ⟨by simp [peek], by simp [peek]⟩

theorem Branch.atLineEnd (h : Branch p indent stage c ks r) : ∀ x, r = .ok x → x.2.atLineEnd = true := by
  induction h with
  | literal _ _ ih | accepted _ _ _ _ _ ih | blockAccepted _ _ _ _ _ ih | separated _ _ _ _ _ ih | next _ _ _ ih
  | aliased _ _ _ _ _ ih => exact ih
  | complete hstop =>
    rintro x ⟨rfl⟩
    exact (and_eq_true_iff.1 hstop).1
  | @subcommand _ _ _ _ _ _ _ inner _ _ _ _ _ _ _ ih =>
    intro x hx
    cases inner with
    | error e => cases hx
    | ok y =>
      cases hx
      exact ih y rfl
  | refused | unknown | childless | blockRefused | ended | unseparated | unresolved | subcommandEnded
  | subcommandUnseparated => rintro x ⟨⟩

theorem outcome_atLineEnd {n : Node} (h : p.outcome indent stage c = .ok (n, d)) : d.atLineEnd = true := by
  obtain ⟨ks, hks⟩ := exists_branch p indent stage c
  exact hks.atLineEnd (n, d) h

theorem skipLine_settled (c : Cursor) : Settled c.skipLine := by
  constructor
  · intro h
    rcases skipLine_peek h with h | h <;> cases h
  · intro h
    rcases skipLine_peek h with h | h <;> cases h

theorem blockOutcome_settled {first : Bool} {lines : List Node}
    (h : p.blockOutcome indent first c = .ok (lines, d)) (hc : Settled c) : Settled d := by
  replace h := blockRead_of_ok h
  induction h with
  | unended | left => exact hc
  | ended _ hend =>
    rw [atEnd, List.isEmpty_iff] at hend
    simp [Settled, peek, hend]
  | comment _ _ _ ih => exact ih (skipLine_settled _)
  | command _ _ _ _ hn _ ih => exact ih (settled_of_atLineEnd (outcome_atLineEnd hn))

theorem spanHere_start (c : Cursor) : c.spanHere.start = c.location := by
  rw [spanHere]
  split
  · rfl
  · split <;> rfl

theorem gap_error_here (h : gap c = .error e) (hc : Settled c) : e.span.start = c.location := by
  rw [gap, separator, dif_neg hc.1] at h
  cases h
  exact spanHere_start c

theorem Branch.fails_here (h : Branch p indent stage c ks r) :
    Settled c → (∀ owner pending, stage ≠ .child owner pending) → ∀ e, r = .error e → e.span.start = c.location := by
  have no_gap : ∀ {c d : Cursor}, Settled c → gap c = .ok d → False :=
    fun hc hgap => hc.1 (gap_ok hgap).1
  induction h with
  | literal | refused | accepted | unknown => exact fun _ hstage => absurd rfl (hstage _ _)
  | blockRefused hcolon | blockAccepted hcolon => exact fun hc => absurd hcolon hc.2
  | separated _ _ _ hgap | subcommand _ _ _ _ _ hgap => exact fun hc => (no_gap hc hgap).elim
  | next _ _ _ ih | aliased _ _ _ _ _ ih => exact fun hc _ => ih hc (fun _ _ h => by cases h)
  | complete => rintro _ _ e ⟨⟩
  | unseparated _ _ _ hgap | subcommandUnseparated _ _ _ _ _ hgap =>
    rintro hc _ e ⟨rfl⟩
    exact gap_error_here hgap hc
  | childless | ended | unresolved | subcommandEnded =>
    rintro _ _ e ⟨rfl⟩
    exact spanHere_start _

theorem blockArgument_settled {value : Node} (h : p.blockArgument indent c = .ok (value, d)) : Settled d := by
  obtain ⟨-, -, hend, -, lines, hlines, -⟩ := blockArgument_ok h
  exact blockOutcome_settled hlines (settled_of_atLineEnd hend)

/-- Where a block that opens at a cursor fails, or else where it ends. -/
def blockStop (p : Parser) (indent : Option Nat) (c : Cursor) : Location :=
  match p.blockArgument indent c with
  | .error e => e.span.start
  | .ok (_, d) => d.location

theorem attempt_block_error (hblock : p.registry ArgumentReader.blockName = some .block) (hentry : isBlock entry = true)
    (he : p.attempt indent pending c entry = .error e) : e.span.start = p.blockStop indent c := by
  have hreader : entry.2.reader? = some ArgumentReader.blockName := by simpa [isBlock] using hentry
  have hread : p.argumentOutcome indent entry.2 c = p.blockArgument indent c := by
    rw [argumentOutcome_eq, hreader, Option.getD_some, hblock]
  rw [attempt, hread] at he
  rw [blockStop]
  cases hvalue : p.blockArgument indent c with
  | error e' =>
    rw [hvalue] at he
    cases he
    rfl
  | ok x =>
    rw [hvalue] at he
    obtain ⟨ks, hks⟩ := exists_branch p indent (.after entry.2 (pending.argument entry.1 x.1)) x.2
    exact hks.fails_here (blockArgument_settled hvalue) (fun _ _ h => by cases h) e he

/-- The reader answers the search, with an error that no other is behind if the name of the block reader
stands for it. -/
theorem answers (p : Parser) (indent : Option Nat) (stage : Stage) (c : Cursor) :
    Answers (p.registry ArgumentReader.blockName = some .block) (Branch p indent stage c)
      (p.outcome indent stage c) := by
  refine answers_of _ ?_ stage c
  -- all errors begin where the block fails or ends, so the last is as far as any other
  intro hblock pending c entry entry' e e' hentry hentry' he he'
  rw [attempt_block_error hblock hentry he, attempt_block_error hblock hentry' he']

/-- Reading a command anywhere, in a block of any indentation, succeeds exactly if a branch of the search
completes, and gives what the first such branch in tree order ends with. If it fails, it fails as a branch
does, and no branch fails further into the text as long as the name of the block reader stands for it. -/
theorem command_answers_search (p : Parser) (indent : Option Nat) (c : Cursor) :
    let branches := Branch p indent (.child p.tree { start := c.location }) c
    let result := (p.children indent p.tree { start := c.location } c).map Step.pair
    ((∃ x, result = .ok x) ↔ ∃ ks x, branches ks (.ok x)) ∧
      (∀ x, result = .ok x → ∃ ks, branches ks (.ok x) ∧
        ∀ ks' x', branches ks' (.ok x') → ks < ks' ∨ ks' = ks ∧ x' = x) ∧
      ∀ e, result = .error e → (∃ ks, branches ks (.error e)) ∧
        (p.registry ArgumentReader.blockName = some .block →
          ∀ ks e', branches ks (.error e') → e'.span.start.offset ≤ e.span.start.offset) := by
  intro branches result
  have hanswer : Answers _ branches result := answers p indent (.child p.tree { start := c.location }) c
  refine ⟨⟨?_, ?_⟩, ?_, ?_⟩
  · rintro ⟨x, hx⟩
    rw [hx] at hanswer
    obtain ⟨ks, hks, -⟩ := hanswer
    exact ⟨ks, x, hks⟩
  · rintro ⟨ks, x, hks⟩
    cases hr : result with
    | ok y => exact ⟨y, rfl⟩
    | error e =>
        rw [hr] at hanswer
        exact absurd hks (hanswer.1 ks x)
  · intro x hx
    rwa [hx] at hanswer
  · intro e he
    rw [he] at hanswer
    exact hanswer.2

theorem command_answers_search_standard :
    let p : Parser := { tree := CommandTree.bundled }
    let c := Cursor.start "teleport @s ~ ~"
    ∀ e, (p.children none p.tree { start := c.location } c).map Step.pair = .error e →
      ∀ ks e', Branch p none (.child p.tree { start := c.location }) c ks (.error e') →
        e'.span.start.offset ≤ e.span.start.offset :=
  fun e he => ((command_answers_search _ _ _).2.2 e he).2 rfl

end Mcfunction.Parser
