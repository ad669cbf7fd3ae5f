import Mcfunction.Proofs.OutputPaths
import Mcfunction.Proofs.Redundant
import Mcfunction.Proofs.Scripts

/-! The text of commands that only run others. Main statement: what is printed for the tree of a text in which the
commands that are run stand in their place is what is printed for the tree itself, with all repetitions of the words
`execute run` at the beginnings of its lines left out. -/

namespace Mcfunction

open List ExecuteRun CommandTree Printer Text Node Spec

namespace ExecuteRun

/-! ### Lines -/

/-- The words of a command that only runs another one, with the space behind them. -/
def clause : List Char := "execute run ".toList

/-- A text without the repetitions of the clause that it begins with. -/
def stripClauses (cs : List Char) : List Char :=
  if clause <+: cs then stripClauses (cs.drop clause.length) else cs
termination_by cs.length
decreasing_by
  rename_i hclause
  have hlen := hclause.length_le
  have hpos : clause.length = 12 := rfl
  rw [length_drop]
  omega

/-- A line without the repetitions of the clause behind its leading spaces. -/
def stripLine (line : List Char) : List Char := line.takeWhile (· = ' ') ++ stripClauses (line.dropWhile (· = ' '))

/-- A text in which all lines but the first are without clauses, and the first is changed by a function. -/
def stripBelow (first : List Char → List Char) (cs : List Char) : List Char :=
  ['\n'].intercalate (match split '\n' cs with
    | [] => []
    | line :: lines => first line :: lines.map stripLine)

/-- A text with the clauses left out at the beginnings of all its lines. -/
def strip (text : String) : String :=
  String.ofList (['\n'].intercalate ((split '\n' text.toList).map stripLine))

/-- The text of a command, without the clauses that it begins with and those in the blocks that it holds. -/
def stripCommand (t : List Char) : List Char := stripClauses (stripBelow id t)

variable {f : List Char → List Char} {a b t : List Char} {width : Nat} {ts : List (List Char)}

theorem stripClauses_clause (cs : List Char) : stripClauses (clause ++ cs) = stripClauses cs := by
  rw [stripClauses, if_pos (prefix_append _ _), drop_left]

theorem stripClauses_of_not_begins (h : ¬clause <+: t) : stripClauses t = t := by
  rw [stripClauses, if_neg h]

theorem prefix_append_iff (h : LineEnd b) : clause <+: a ++ b ↔ clause <+: a := by
  constructor
  · intro hclause
    rcases prefix_or_prefix_of_prefix hclause (prefix_append a b) with hshort | ⟨more, hmore⟩
    · exact hshort
    · rw [← hmore, prefix_append_right_inj] at hclause
      cases more with
      | nil => rw [← hmore, append_nil]
      | cons ch more =>
        obtain ⟨rest, rfl⟩ := hclause
        have hfeed : '\n' ∈ clause := by
          rw [← hmore, ← of_decide_eq_true h.of_cons]
          exact mem_append_right _ mem_cons_self
        exact absurd hfeed (by decide)
  · exact fun hclause => hclause.trans (prefix_append a b)

theorem stripClauses_append (a : List Char) (h : LineEnd b) : stripClauses (a ++ b) = stripClauses a ++ b := by
  fun_induction stripClauses a with
  | case1 a hclause ih =>
    obtain ⟨rest, rfl⟩ := hclause
    rw [drop_left] at ih
    rw [append_assoc, stripClauses_clause, drop_left, ih]
  | case2 a hclause => rw [stripClauses_of_not_begins ((prefix_append_iff h).not.2 hclause)]

theorem intercalate_append {lines lines' : List (List Char)} (h : lines ≠ []) (h' : lines' ≠ []) :
    ['\n'].intercalate (lines ++ lines') = ['\n'].intercalate lines ++ '\n' :: ['\n'].intercalate lines' := by
  induction lines with
  | nil => exact absurd rfl h
  | cons line lines ih =>
    cases lines with
    | nil =>
      rw [singleton_append, intercalate_cons_of_ne_nil h']
      simp
    | cons next lines =>
      rw [cons_append, cons_append, intercalate_cons_cons,
        ← cons_append, ih (cons_ne_nil next lines)]
      simp

theorem stripBelow_feed (f : List Char → List Char) (a b : List Char) :
    stripBelow f (a ++ '\n' :: b) = stripBelow f a ++ '\n' :: stripBelow stripLine b := by
  obtain ⟨x, xs, hxs⟩ := exists_cons_of_ne_nil (split_ne_nil '\n' a)
  obtain ⟨y, ys, hys⟩ := exists_cons_of_ne_nil (split_ne_nil '\n' b)
  rw [stripBelow, stripBelow, stripBelow, split_append_sep, hxs, hys]
  dsimp only [cons_append]
  rw [map_append]
  exact intercalate_append (cons_ne_nil _ _) (cons_ne_nil _ _)

theorem stripBelow_of_not_mem (f : List Char → List Char) (h : '\n' ∉ a) : stripBelow f a = f a := by
  rw [stripBelow, split_of_not_mem h]
  exact intercalate_singleton

theorem strip_eq (text : String) : strip text = String.ofList (stripBelow stripLine text.toList) := by
  rw [strip, stripBelow]
  split
  · rename_i hsplit
    rw [hsplit]
    rfl
  · rename_i hsplit
    rw [hsplit]
    rfl

theorem stripBelow_append (h : '\n' ∉ a) (t : List Char) : stripBelow id (a ++ t) = a ++ stripBelow id t := by
  by_cases ht : '\n' ∈ t
  · obtain ⟨u, v, rfl, hu⟩ := eq_append_cons_of_mem ht
    have hau : '\n' ∉ a ++ u := by
      rw [mem_append, not_or]
      exact ⟨h, hu⟩
    rw [← append_assoc, stripBelow_feed, stripBelow_feed, stripBelow_of_not_mem id hau,
      stripBelow_of_not_mem id hu, id, id, append_assoc]
  · have hat : '\n' ∉ a ++ t := by
      rw [mem_append, not_or]
      exact ⟨h, ht⟩
    rw [stripBelow_of_not_mem id hat, stripBelow_of_not_mem id ht]
    rfl

theorem stripBelow_cons {ch : Char} (h : ch ≠ '\n') (t : List Char) :
    stripBelow id (ch :: t) = ch :: stripBelow id t :=
  stripBelow_append (fun hmem => h (mem_singleton.1 hmem).symm) t

theorem stripBelow_lineEnd (hb : LineEnd b) (t : List Char) :
    stripBelow id (t ++ b) = stripBelow id t ++ stripBelow id b ∧ LineEnd (stripBelow id b) := by
  cases b with
  | nil =>
    rw [append_nil]
    exact ⟨(append_nil _).symm, hb⟩
  | cons ch b =>
    obtain rfl : ch = '\n' := of_decide_eq_true hb.of_cons
    have hfeed : stripBelow id ('\n' :: b) = '\n' :: stripBelow stripLine b := by
      rw [← nil_append ('\n' :: b), stripBelow_feed]
      rfl
    rw [hfeed, stripBelow_feed]
    exact ⟨rfl, EndsAt.cons rfl⟩

theorem stripLine_indented (h : a.head? ≠ some ' ') (width : Nat) :
    stripLine (replicate width ' ' ++ a) = replicate width ' ' ++ stripClauses a := by
  have hend : EndsAt (fun ch => !decide (ch = ' ')) a := by
    intro ch hch
    simp only [Bool.not_eq_true', decide_eq_false_iff_not]
    rintro rfl
    exact h hch
  have htake : (replicate width ' ' ++ a).takeWhile (· = ' ') = replicate width ' ' :=
    EndsAt.takeWhile_append (fun ch hch => decide_eq_true (eq_of_mem_replicate hch)) hend
  have hdrop : (replicate width ' ' ++ a).dropWhile (· = ' ') = a := by
    have hboth := takeWhile_append_dropWhile (p := (· = ' ')) (l := replicate width ' ' ++ a)
    rw [htake] at hboth
    exact append_cancel_left hboth
  rw [stripLine, htake, hdrop]

theorem stripBelow_indented (h : StartsAt (fun ch => !Text.isBlank ch) t) (width : Nat) :
    stripBelow stripLine (replicate width ' ' ++ t) = replicate width ' ' ++ stripCommand t := by
  have hspaces : '\n' ∉ replicate width ' ' := fun hmem => absurd (eq_of_mem_replicate hmem) (by decide)
  have hhead : ∀ u, StartsAt (fun ch => !Text.isBlank ch) u → u.head? ≠ some ' ' := by
    rintro _ ⟨ch, cs, rfl, hch⟩ hspace
    rw [Option.some.inj hspace] at hch
    cases hch
  by_cases ht : '\n' ∈ t
  · obtain ⟨u, v, rfl, hu⟩ := eq_append_cons_of_mem ht
    have hstarts : StartsAt (fun ch => !Text.isBlank ch) u := by
      obtain ⟨ch, cs, hcs, hch⟩ := h
      cases u with
      | nil =>
        rw [← (cons.inj hcs).1] at hch
        cases hch
      | cons c u => exact ⟨c, u, rfl, by rwa [(cons.inj hcs).1]⟩
    have hline : '\n' ∉ replicate width ' ' ++ u := by
      rw [mem_append, not_or]
      exact ⟨hspaces, hu⟩
    rw [← append_assoc, stripBelow_feed, stripBelow_of_not_mem _ hline, stripLine_indented (hhead u hstarts),
      stripCommand, stripBelow_feed, stripBelow_of_not_mem id hu, id, stripClauses_append u (EndsAt.cons rfl),
      append_assoc]
  · have hline : '\n' ∉ replicate width ' ' ++ t := by
      rw [mem_append, not_or]
      exact ⟨hspaces, ht⟩
    rw [stripBelow_of_not_mem _ hline, stripLine_indented (hhead t h), stripCommand, stripBelow_of_not_mem id ht]
    rfl

open Mcfunction.Parser (linesText linesText_cons lineEnd_linesText flatMap_feeds)

theorem stripBelow_linesText (width : Nat) (h : ∀ t ∈ ts, StartsAt (fun ch => !Text.isBlank ch) t) (hb : LineEnd b) :
    stripBelow id (linesText width ts ++ b) = linesText width (ts.map stripCommand) ++ stripBelow id b := by
  induction ts with
  | nil => rfl
  | cons t ts ih =>
    have ih := ih fun u hu => h u (mem_cons_of_mem t hu)
    have hlines : LineEnd (linesText width ts ++ b) := lineEnd_linesText hb
    obtain ⟨hmore, hend⟩ := stripBelow_lineEnd hlines t
    have hstarts := (h t mem_cons_self).append (linesText width ts ++ b)
    rw [map_cons, linesText_cons, linesText_cons, ← nil_append ('\n' :: _), stripBelow_feed,
      stripBelow_indented hstarts, stripCommand, hmore,
      stripClauses_append _ hend, ih]
    rfl

theorem stripBelow_flatMap (h : ∀ t ∈ ts, StartsAt (fun ch => !Text.isBlank ch) t) :
    stripBelow stripLine (ts.flatMap fun t => t ++ ['\n']) = (ts.map stripCommand).flatMap fun t => t ++ ['\n'] := by
  have hend : LineEnd ['\n'] := EndsAt.cons rfl
  have hlines := stripBelow_linesText 0 h hend
  have hfeed : stripBelow id ['\n'] = ['\n'] := by
    rw [← nil_append ['\n'], stripBelow_feed,
      stripBelow_of_not_mem stripLine not_mem_nil]
    exact congrArg (cons '\n') (stripClauses_of_not_begins (by decide))
  rw [hfeed, ← flatMap_feeds, ← flatMap_feeds, singleton_append,
    ← nil_append ('\n' :: _), stripBelow_feed] at hlines
  exact (cons.inj hlines).2

end ExecuteRun

/-! ### Scripts of changed commands -/

/-- Nothing but words comes behind `execute`, and whole commands come behind `execute run`. -/
def CommandTree.runsCommands (root : CommandTree) : Bool :=
  (root.children.lookup "execute").any fun execute =>
    execute.redirect?.isNone && execute.children.all (fun entry => !Parser.isArgument entry && !Parser.isBlock entry) &&
      (execute.children.lookup "run").any fun run => !run.executable && decide (run.redirect? = some []) && root.subcommand

namespace Parser

open CommandTree (Leads)
open ExecuteRun (clause stripClauses stripBelow stripCommand)

variable {root run node execute : CommandTree} {V : Node → Prop} {B B' : Node → List Char → Prop} {spot : Spot}
  {ws : List String} {ns : List Node} {t : List Char}

/-- A command keeps its script when the commands in its blocks are changed, up to the texts of the blocks. -/
theorem Script.rewrite_inline (h : FlatScript root B spot ws ns t)
    (hblocks : ∀ value text, B value text → B' (value.rewrite ExecuteRun.inline) (stripBelow id text)) :
    FlatScript root B' spot ws (ns.map (rewrite ExecuteRun.inline)) (stripBelow id t) := by
  induction h with
  | @literal owner child word ws ns t hchild hrole hword _ ih =>
    have hfeed : '\n' ∉ word.toList := fun hmem => absurd (hword _ hmem) (by decide)
    rw [ExecuteRun.stripBelow_append hfeed]
    exact .literal hchild hrole hword ih
  | @value owner entry value ws ns t hentry harg hreader hparts hvalue _ ih =>
    have hsame : value.rewrite ExecuteRun.inline = value := by
      refine rewrite_of_fixed fun m hm => ExecuteRun.inline_of_kind_ne fun hkind => ?_
      have hpart := hparts m (mem_walk.2 hm)
      rw [hkind] at hpart
      cases hpart
    rw [map_cons, hsame, ExecuteRun.stripBelow_append hvalue]
    exact .value hentry harg hreader hparts hvalue ih
  | block hentry hblock hexec hvalue => exact .block hentry hblock hexec (hblocks _ _ hvalue)
  | separated _ ih =>
    rw [ExecuteRun.stripBelow_cons (by decide)]
    exact .separated ih
  | complete hexec =>
    exact .complete hexec
  | follows hfollows _ ih => exact .follows hfollows ih
  | subcommand hto hform _ ih =>
    rw [ExecuteRun.stripBelow_cons (by decide)]
    exact .subcommand hto (ExecuteRun.form_rewrite_inline_of_command hform) ih

/-! ### The first words of a command -/

/-- A place that a way leads to, or whose children may come next on one. -/
def Spot.Reached (root : CommandTree) : Spot → Prop
  | .child owner => ∃ way node, Leads root way node ∧ owner.children ⊆ root.following node
  | .follow owner => ∃ way node, Leads root way node ∧ owner.children ⊆ root.following node
  | .after node => ∃ way, Leads root way node

theorem Script.names (hroot : root.Regular) (h : Script root V B spot ws ns t) (hspot : spot.Reached root) :
    ∀ w ∈ ws, ':' ∉ w.toList := by
  have hname : ∀ {way : Way} {node : CommandTree} {name : String} {child : CommandTree},
      Leads root way node → (name, child) ∈ root.following node → ':' ∉ name.toList := by
    intro way node name child hway hchild
    exact (hway.step hchild).names hroot name (by simp)
  induction h with
  | literal hchild _ _ _ ih =>
    obtain ⟨way, node, hway, hsub⟩ := hspot
    have hmem := hsub (Entries.mem_of_lookup hchild)
    exact forall_mem_cons.2 ⟨hname hway hmem, ih ⟨_, hway.step hmem⟩⟩
  | value hentry _ _ _ _ _ ih =>
    obtain ⟨way, node, hway, hsub⟩ := hspot
    exact forall_mem_cons.2 ⟨hname hway (hsub hentry), ih ⟨_, hway.step (hsub hentry)⟩⟩
  | block hentry _ _ _ =>
    obtain ⟨way, node, hway, hsub⟩ := hspot
    exact forall_mem_singleton.2 (hname hway (hsub hentry))
  | separated _ ih => exact ih hspot
  | complete _ => exact forall_mem_nil _
  | follows hfollows _ ih =>
    obtain ⟨way, hway⟩ := hspot
    exact ih ⟨way, _, hway, hfollows ▸ Subset.refl _⟩
  | subcommand _ _ _ _ => exact forall_mem_singleton.2 (by decide)

def isWordBreak (ch : Char) : Bool := ch = ' ' || ch = ':'

theorem Script.behind (h : Script root V B (.after node) ws ns t)
    (hblocks : ∀ value text, B value text → ∃ more, text = ':' :: more) : EndsAt isWordBreak t := by
  cases h with
  | complete => exact EndsAt.nil
  | subcommand => exact EndsAt.cons rfl
  | follows _ rest =>
    cases rest with
    | separated => exact EndsAt.cons rfl
    | block _ _ _ hvalue =>
      obtain ⟨more, rfl⟩ := hblocks _ _ hvalue
      exact EndsAt.cons rfl

theorem isWordBreak_of_mem {word : String} (hword : ∀ ch ∈ word.toList, isBlank ch = false)
    (hcolon : ':' ∉ word.toList) : ∀ ch ∈ word.toList, isWordBreak ch = false := by
  intro ch hch
  rw [isWordBreak, Bool.or_eq_false_iff, decide_eq_false_iff_not, decide_eq_false_iff_not]
  constructor
  · rintro rfl
    exact absurd (hword _ hch) (by decide)
  · rintro rfl
    exact hcolon hch

theorem eq_of_begins {v w r u : List Char} (hv : v.all (fun ch => !isWordBreak ch) = true)
    (hw : ∀ ch ∈ w, isWordBreak ch = false) (hr : EndsAt isWordBreak r) (h : v ++ ' ' :: u <+: w ++ r) :
    v = w ∧ ' ' :: u <+: r := by
  have htake : ∀ {a b : List Char}, (∀ ch ∈ a, (!isWordBreak ch) = true) → EndsAt isWordBreak b →
      (a ++ b).takeWhile (fun ch => !isWordBreak ch) = a :=
    fun ha hb => EndsAt.takeWhile_append ha (hb.mono fun ch hch => by rw [hch]; rfl)
  obtain ⟨more, hmore⟩ := h
  rw [append_assoc] at hmore
  have hspace : EndsAt isWordBreak (' ' :: u ++ more) := EndsAt.cons rfl
  have heq : v = w := by
    rw [← htake (all_eq_true.1 hv) hspace, hmore, htake (fun ch hch => by rw [hw ch hch]; rfl) hr]
  subst heq
  exact ⟨rfl, more, append_cancel_left hmore⟩

/-- A command that begins with some words, behind which the text of a whole command comes. -/
def StartsWith (root : CommandTree) (V : Node → Prop) (B : Node → List Char → Prop) (words : List String)
    (text : List Char) (ws : List String) (ns : List Node) (t : List Char) : Prop :=
  ∃ n ws' ns' u, ws = words ++ [Slot.subcommandName] ∧ ns = [n] ∧ t = text ++ u ∧
    n.form = .command (":".intercalate ws') ns' ∧ Script root V B (.child root) ws' ns' u

theorem Script.afterRun (h : Script root V B (.after run) ws ns t) (hexec : run.executable = false)
    (hto : root.RedirectsTo run [] root) : StartsWith root V B [] [' '] ws ns t := by
  cases h with
  | complete hend =>
    rw [hexec] at hend
    cases hend
  | follows hfollows rest =>
    rw [hto.following] at hfollows
    cases rest with
    | block hentry =>
      rw [hfollows] at hentry
      cases hentry
    | separated rest =>
      cases rest with
      | literal hchild =>
        rw [hfollows] at hchild
        cases hchild
      | value hentry =>
        rw [hfollows] at hentry
        cases hentry
  | @subcommand _ path target n ws ns u hto' hform rest =>
    obtain rfl : path = [] := Option.some.inj (hto'.1.symm.trans hto.1)
    obtain rfl : target = root := Option.some.inj (hto'.2.1.symm.trans hto.2.1)
    exact ⟨n, ws, ns, u, rfl, rfl, rfl, hform, rest⟩

/-- Behind `execute` the word `run` comes, with a whole command behind it, or something else. -/
theorem Script.afterExecute (h : Script root V B (.after execute) ws ns t)
    (hnames : ∀ w ∈ ws, ':' ∉ w.toList) (hblocks : ∀ value text, B value text → ∃ more, text = ':' :: more)
    (hred : execute.redirect? = none)
    (hchildren : ∀ entry ∈ execute.children, isArgument entry = false ∧ isBlock entry = false)
    (hrun : execute.children.lookup "run" = some run) (hexec : run.executable = false)
    (hto : root.RedirectsTo run [] root) :
    StartsWith root V B ["run"] " run ".toList ws ns t ∨ ¬["run"] <+: ws ∧ ¬" run ".toList <+: t := by
  cases h with
  | complete => exact .inr ⟨by decide, by decide⟩
  | subcommand hto => cases hred.symm.trans hto.1
  | follows hfollows rest =>
    rw [following_of_none hred] at hfollows
    cases rest with
    | block hentry hblock =>
      rw [hfollows] at hentry
      rw [(hchildren _ hentry).2] at hblock
      cases hblock
    | separated rest =>
      cases rest with
      | value hentry harg =>
        rw [hfollows] at hentry
        rw [(hchildren _ hentry).1] at harg
        cases harg
      | @literal _ child word ws ns t hchild _ hword rest =>
        by_cases hw : word = "run"
        · subst hw
          rw [hfollows] at hchild
          cases hchild.symm.trans hrun
          obtain ⟨n, ws', ns', u, rfl, rfl, rfl, hform, hscript⟩ := rest.afterRun hexec hto
          exact .inl ⟨n, ws', ns', u, rfl, rfl, rfl, hform, hscript⟩
        · refine .inr ⟨fun hwords => hw (cons_prefix_cons.1 hwords).1.symm, fun htext => hw ?_⟩
          have hbreaks := isWordBreak_of_mem hword (hnames word mem_cons_self)
          have hend := rest.behind hblocks
          have heq := eq_of_begins (v := "run".toList) rfl hbreaks hend (cons_prefix_cons.1 htext).2
          exact (String.toList_inj.1 heq.1).symm

section

variable (hroot : root.Regular) (hruns : root.runsCommands = true)
  (hliterals : ∀ entry ∈ root.children, isArgument entry = false)
  (hblocks : ∀ value text, B value text → ∃ more, text = ':' :: more)

include hroot hruns hliterals hblocks

/-- A command begins with the clause just if it only runs another one, whose text comes behind the clause. -/
theorem Script.startsWith_or (h : Script root V B (.child root) ws ns t) :
    StartsWith root V B ["execute", "run"] clause ws ns t ∨ ":".intercalate ws ≠ identifier ∧ ¬clause <+: t := by
  have hnames := h.names hroot ⟨{}, root, .start, following_of_none hroot.root ▸ Subset.refl _⟩
  have hid : ¬["execute", "run"] <+: ws → ":".intercalate ws ≠ identifier := by
    intro hwords heq
    refine hwords ?_
    have hne : ws ≠ [] := by
      rintro rfl
      exact absurd heq (by decide)
    have hclause : (["execute", "run", Slot.subcommandName] : List String) ≠ [] := cons_ne_nil _ _
    rw [intercalate_colon_injective hne hclause hnames (by decide) heq]
    decide
  simp only [runsCommands, Option.any_eq_true, Bool.and_eq_true, all_eq_true, decide_eq_true_eq,
    Bool.not_eq_true', Option.isNone_iff_eq_none] at hruns
  obtain ⟨execute, hexecute, ⟨hred, hchildren⟩, run, hrun, ⟨hexec, hback⟩, hsub⟩ := hruns
  cases h with
  | value hentry harg =>
    rw [hliterals _ hentry] at harg
    cases harg
  | @literal _ child word ws ns t hchild _ hword rest =>
    by_cases hw : word = "execute"
    · subst hw
      cases hchild.symm.trans hexecute
      rcases rest.afterExecute (fun w hw => hnames w (mem_cons_of_mem _ hw)) hblocks hred hchildren hrun
        hexec ⟨hback, rfl, hsub⟩ with ⟨n, ws', ns', u, rfl, rfl, rfl, hform, hscript⟩ | ⟨hwords, htext⟩
      · exact .inl ⟨n, ws', ns', u, rfl, rfl, rfl, hform, hscript⟩
      · refine .inr ⟨hid fun hbegins => hwords (cons_prefix_cons.1 hbegins).2, fun hbegins => htext ?_⟩
        exact (prefix_append_right_inj "execute".toList).1 hbegins
    · refine .inr ⟨hid fun hwords => hw (cons_prefix_cons.1 hwords).1.symm, fun htext => hw ?_⟩
      have hbreaks := isWordBreak_of_mem hword (hnames word mem_cons_self)
      have heq := eq_of_begins (v := "execute".toList) rfl hbreaks
        (rest.behind hblocks) htext
      exact (String.toList_inj.1 heq.1).symm

/-- The command that is run in the end has the text behind all clauses. -/
theorem Script.unwrap {n : Node} (hform : n.form = .command (":".intercalate ws) ns)
    (h : Script root V B (.child root) ws ns t) : ∃ ws' ns', (unwrap n).form = .command (":".intercalate ws') ns' ∧
      Script root V B (.child root) ws' ns' (stripClauses t) := by
  induction hsize : n.size using Nat.strongRecOn generalizing n ws ns t with
  | ind size ih =>
    subst hsize
    rcases h.startsWith_or hroot hruns hliterals hblocks with
      ⟨m, ws', ns', u, rfl, rfl, rfl, hform', hscript⟩ | ⟨hid, hclause⟩
    · have htarget : target? n = some m := by
        rw [target?, hform]
        exact if_pos rfl
      have hunwrap : unwrap n = unwrap m := by
        rw [unwrap]
        split
        · rename_i hk
          rw [Option.some.inj (hk.symm.trans htarget)]
        · rename_i hnone
          cases hnone.symm.trans htarget
      rw [hunwrap, stripClauses_clause]
      exact ih m.size (size_target? htarget) hform' hscript rfl
    · have htarget : target? n = none := by
        rw [target?, hform]
        exact if_neg hid
      rw [unwrap_of_target?_eq_none htarget, stripClauses_of_not_begins hclause]
      exact ⟨ws, ns, hform, h⟩

end

/-! ### Lines and blocks -/

/-- A block that is printed as a text. -/
structure PrintsBlock (q : Printer) (depth : Nat) (value : Node) (text : List Char) : Prop where
  kind : value.kind = .root
  opens : ∃ more, text = ':' :: more
  prints : q.print (depth + 1) none value = .ok (String.ofList text, none)

/-- A block that is printed as a text, both as it is and with its commands changed. -/
def UnwrapsBlock (q : Printer) (depth : Nat) (value : Node) (text : List Char) : Prop :=
  PrintsBlock q depth value text ∧ PrintsBlock q depth (value.rewrite ExecuteRun.inline) (stripBelow id text)

/-- A line that is printed as a text, both as it is and with its commands changed. -/
structure UnwrapsLine (q : Printer) (depth : Nat) (n : Node) (t : List Char) : Prop where
  starts : StartsAt (fun ch => !Text.isBlank ch) t
  prints : q.print (depth + 1) none n = .ok (String.ofList t, none)
  unwraps : q.print (depth + 1) none (ExecuteRun.unwrap (n.rewrite ExecuteRun.inline)) =
    .ok (String.ofList (stripCommand t), none)

variable {p : Parser} {q : Printer} {depth level : Nat} {indent : Option Nat} {c e : Cursor} {n value tree : Node}
  {lines : List Node} {f : Node → List Char}

theorem commentLine_unwraps (d : Cursor) : ∀ line ∈ p.commentLine d, ∃ t, UnwrapsLine q depth line t := by
  intro line hline
  rw [commentLine] at hline
  split at hline
  · obtain rfl := mem_singleton.1 hline
    have hfeed : '\n' ∉ '#' :: d.skipSpaces.lineRest.drop 1 := by
      rw [mem_cons, not_or]
      exact ⟨by decide, fun hmem => d.skipSpaces.newline_not_mem_lineRest (mem_of_mem_drop hmem)⟩
    have hclause : ¬clause <+: '#' :: d.skipSpaces.lineRest.drop 1 :=
      fun hbegins => absurd (cons_prefix_cons.1 hbegins).1 (by decide)
    refine ⟨'#' :: d.skipSpaces.lineRest.drop 1, StartsAt.cons rfl, print_comment rfl, ?_⟩
    rw [rewrite_inline_of_kind_ne Kind.noConfusion,
      unwrap_of_target?_eq_none (target?_of_kind_ne Kind.noConfusion), stripCommand,
      stripBelow_of_not_mem id hfeed, id, stripClauses_of_not_begins hclause]
    exact print_comment rfl
  · cases hline

theorem Script.starts (htidy : root.Tidy) (h : Script root V B (.child root) ws ns t) :
    StartsAt (fun ch => !Text.isBlank ch) t := by
  cases h with
  | literal hchild _ hword _ =>
    obtain ⟨ch, cs, hcs, hch, -⟩ := htidy.first hchild hword
    rw [hcs]
    exact StartsAt.cons (by rw [hch]; rfl)
  | value hentry harg =>
    rw [isArgument, (htidy.root _ hentry).1] at harg
    cases harg

theorem print_unwraps (hform : value.form = .root lines) (h : ∀ n ∈ lines, UnwrapsLine q level n (f n)) :
    q.print level none value = .ok (q.blockText level ((lines.map f).map String.ofList), none) ∧
      q.print level none (value.rewrite ExecuteRun.inline) =
        .ok (q.blockText level (((lines.map f).map stripCommand).map String.ofList), none) := by
  rw [map_map, map_map, map_map]
  constructor
  · exact print_root hform (printAll_ok fun n hn => (h n hn).prints)
  · exact print_root (form_rewrite_inline_of_root hform)
      (printAll_map fun n hn => (h n hn).unwraps)

theorem unwrapsBlock_of_lines (hform : value.form = .root lines) (h : ∀ n ∈ lines, UnwrapsLine q (depth + 1) n (f n)) :
    UnwrapsBlock q depth value (':' :: linesText (q.indent * (depth + 1)) (lines.map f)) := by
  have hkind : value.kind = .root := by
    rw [kind, hform]
    rfl
  obtain ⟨hprint, hprint'⟩ := print_unwraps hform h
  rw [← String.ofList_toList (s := q.blockText _ _), toList_blockText] at hprint hprint'
  have hstarts : ∀ t ∈ lines.map f, StartsAt (fun ch => !Text.isBlank ch) t :=
    forall_mem_map.2 fun n hn => (h n hn).starts
  have hstrip := stripBelow_linesText (q.indent * (depth + 1)) hstarts EndsAt.nil
  rw [stripBelow_of_not_mem id not_mem_nil, id, append_nil, append_nil] at hstrip
  refine ⟨⟨hkind, ⟨_, rfl⟩, hprint⟩, ?_⟩
  rw [stripBelow_cons (by decide), hstrip]
  exact ⟨by rw [kind_rewrite_inline, hkind], ⟨_, rfl⟩, hprint'⟩

section

variable (htree : p.tree = q.spec.tree) (hreg : p.registry = .standard) (hroot : q.spec.tree.Regular)
  (htidy : q.spec.tree.Tidy) (hruns : q.spec.tree.runsCommands = true)
  (hspec : q.spec.tree.prototypes = .ok q.spec.prototypes)

include htree hreg hroot htidy hruns hspec

theorem outcome_unwraps {l : Location}
    (hblocks : ∀ d value e, d.remaining ≤ c.remaining → p.blockArgument indent d = .ok (value, e) →
      ∃ text, UnwrapsBlock q depth value text)
    (h : p.outcome indent (.child p.tree { start := l }) c = .ok (n, e)) : ∃ t, UnwrapsLine q depth n t := by
  obtain ⟨ws, ns, t, hform, hscript⟩ := outcome_scripted hreg (htree ▸ htidy) (htree ▸ hroot) hblocks h
  rw [htree] at hscript
  have hliterals : ∀ entry ∈ q.spec.tree.children, isArgument entry = false := by
    intro entry hentry
    rw [isArgument, (htidy.root entry hentry).1]
    rfl
  have hinner : FlatScript q.spec.tree (PrintsBlock q depth) _ ws _ _ :=
    hscript.rewrite_inline fun _ _ hvalue => hvalue.2
  obtain ⟨ws', ns', hform', hscript'⟩ := hinner.unwrap hroot hruns hliterals (fun _ _ hvalue => hvalue.opens)
    (form_rewrite_inline_of_command hform)
  refine ⟨t, hscript.starts htidy, ?_, ?_⟩
  · exact (hscript.written hroot hspec fun _ _ hvalue => ⟨hvalue.1.kind, hvalue.1.prints⟩).print hroot.root hform
  · exact (hscript'.written hroot hspec fun _ _ hvalue => ⟨hvalue.kind, hvalue.prints⟩).print hroot.root hform'

theorem blockOutcome_unwraps {first : Bool}
    (hblocks : ∀ d value e, d.remaining ≤ c.remaining → p.blockArgument indent d = .ok (value, e) →
      ∃ text, UnwrapsBlock q depth value text) (h : p.blockOutcome indent first c = .ok (lines, e)) :
    ∃ f : Node → List Char, ∀ n ∈ lines, UnwrapsLine q depth n (f n) := by
  have hlines := forall_mem_blockOutcome indent first c commentLine_unwraps
    (fun d n e hd hn => outcome_unwraps htree hreg hroot htidy hruns hspec
      (fun d' value e hd' => hblocks d' value e (le_trans hd' hd)) hn) lines e h
  choose! f hf using hlines
  exact ⟨f, hf⟩

theorem blockArgument_unwraps (c : Cursor) : ∀ indent depth value e, p.blockArgument indent c = .ok (value, e) →
    ∃ text, UnwrapsBlock q depth value text := by
  induction c using Cursor.induct with
  | hstep c ih =>
    intro indent depth value e h
    obtain ⟨-, hcolon, -, -, lines, hlines, rfl⟩ := blockArgument_ok h
    have hlt := c.drop_one_remaining hcolon
    obtain ⟨f, hf⟩ := blockOutcome_unwraps htree hreg hroot htidy hruns hspec
      (fun d value e hd hread => ih d (lt_of_le_of_lt hd hlt) _ (depth + 1) value e hread) hlines
    exact ⟨_, unwrapsBlock_of_lines rfl hf⟩

/-- The tree of a text is printed as a text, and, with its commands changed, as that text with its lines changed. -/
theorem parse_unwraps {source : String} (hparse : p.parse source = .ok tree) :
    ∃ text, q.render tree = .ok text ∧ q.render (tree.rewrite ExecuteRun.inline) = .ok (ExecuteRun.strip text) := by
  rw [parse_eq] at hparse
  obtain ⟨⟨lines, d⟩, hlines, rfl⟩ := map_ok hparse
  obtain ⟨f, hf⟩ := blockOutcome_unwraps htree hreg hroot htidy hruns hspec
    (fun d value e _ hread => blockArgument_unwraps htree hreg hroot htidy hruns hspec d _ 0 value e hread) hlines
  have hstarts : ∀ t ∈ lines.map f, StartsAt (fun ch => !Text.isBlank ch) t :=
    forall_mem_map.2 fun n hn => (hf n hn).starts
  have hform : (Node.mk (.root lines) (d.spanFrom .origin)).form = .root lines := rfl
  obtain ⟨hprint, hprint'⟩ := print_unwraps hform hf
  refine ⟨_, by rw [render, hprint], ?_⟩
  rw [render, hprint', strip_eq, toList_blockText_zero, stripBelow_flatMap hstarts,
    ← toList_blockText_zero, String.ofList_toList]

end

end Parser

/-! ### The bundled commands -/

theorem CommandTree.bundled_runsCommands : (bundled.carryOut bundledPlan).runsCommands = true := by decide +kernel

namespace ExecuteRun

variable {σ : Type}

/-- Commands that only run others are taken away just as their words are. Take any text that the bundled grammar reads,
under any options. Its tree is printed, with any indentation of blocks, and what is printed for the tree that the rule
makes of it is the same text, with all repetitions of the words `execute run` left out behind the leading spaces of
each line. -/
theorem render_transforms {spec : Spec} (hspec : withTrees [] true = .ok spec) (options : ParseOptions)
    (indent : Nat) {source : String} {tree : Node}
    (hparse : ({ tree := spec.tree, options } : Parser).parse source = .ok tree) (p : Pass σ) :
    ∃ text, ({ spec, indent } : Printer).render tree = .ok text ∧
      ({ spec, indent } : Printer).render ((transforms σ).reduce tree p).1.node = .ok (strip text) := by
  obtain ⟨htree, hprototypes⟩ := bundled_ok hspec
  have hroot : spec.tree.Regular := htree ▸ bundled_regular.resolve bundled_resolve
  have htidy : spec.tree.Tidy := htree ▸ bundled_tidy
  have hruns : spec.tree.runsCommands = true := htree ▸ bundled_runsCommands
  rw [(reduce_transforms tree p).1.1]
  exact Parser.parse_unwraps (q := { spec, indent }) rfl rfl hroot htidy hruns hprototypes hparse

/-- Clauses in front of a block and in it, a comment that looks like one, and a command that goes on otherwise. -/
theorem render_transforms_nested :
    let options : ParseOptions := { multiline := true, keepComments := true }
    let source :=
      "execute run function a:b :\n execute run execute run say execute run x\n#execute run \nexecute as @a run say hi"
    let p : Pass Unit := ⟨{}, {}, 0, ()⟩
    ∃ spec tree, withTrees [] true = .ok spec ∧
      ({ tree := spec.tree, options } : Parser).parse source = .ok tree ∧
      ∃ text, ({ spec, indent := 2 } : Printer).render tree = .ok text ∧
        ({ spec, indent := 2 } : Printer).render ((transforms Unit).reduce tree p).1.node = .ok (strip text) := by
  intro options source p
  obtain ⟨prototypes, hprototypes⟩ :=
    bundled_regular.keyed.exists_prototypes bundled_resolve
  have hspec := ofTree_eq bundled_resolve hprototypes
  have hread : (Parser.parse { tree := bundled.carryOut bundledPlan, options }
      source).toOption.isSome = true := by decide +kernel
  cases hparse : Parser.parse { tree := bundled.carryOut bundledPlan, options } source with
  | error e =>
      rw [hparse] at hread
      cases hread
  | ok tree => exact ⟨_, tree, hspec, hparse, render_transforms hspec options 2 hparse p⟩

end ExecuteRun

end Mcfunction
