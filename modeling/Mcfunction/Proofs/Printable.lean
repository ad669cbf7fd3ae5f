import Mcfunction.Proofs.RoundTrip
import Mcfunction.Proofs.Transforms

/-! What the standard rules make of a tree can be printed. In a tree that agrees with the prototypes of a grammar that
suits the rules, calls may stand where definitions stood, and commands where those stood that only ran them. Main
statement: the bundled grammar prints what the rules make of any tree that it reads. -/

namespace Mcfunction

open List Option NestedFunction ExecuteRun Spec CommandTree Node Prototype Options
open NestedFunction (Definition)

/-! ### Grammars that suit the rules -/

/-- A grammar with the commands that the rules look for and those that they put in their place. -/
structure Spec.Suits (s : Spec) : Prop where
  functions : ∃ word name body, name.isSubcommand = false ∧ body.isSubcommand = false ∧
    s.prototype? call = some ⟨call, [.literal word, .argument name], [1]⟩ ∧
    s.prototype? definition =
      some ⟨definition, [.literal word, .argument name, .argument body], [1, 2]⟩
  runs : ∃ whole slot, s.prototype? identifier = some whole ∧ whole.slots = [slot] ∧
    slot.isSubcommand = true ∧ s.sharedEntries slot = 0
  shared : ∀ slot, s.sharedEntries slot ≤ 1

namespace CommandTree

variable {root : CommandTree} {words : Path}

theorem exists_of_followers? {node : CommandTree} {hops : Nat} {entries : List (String × CommandTree)} {path : Path}
    (hnode : root.at? path = some node) (h : followers? root hops node = some entries) :
    ∃ place owner, root.at? place = some owner ∧ entries = owner.children := by
  unfold followers? at h
  cases hred : node.redirect? with
  | none =>
    rw [hred] at h
    exact ⟨path, node, hnode, (some.inj h).symm⟩
  | some target =>
    rw [hred] at h
    cases hops with
    | zero => cases h
    | succ hops =>
      obtain ⟨owner, howner, h⟩ := bind_eq_some_iff.1 h
      exact exists_of_followers? howner h

theorem exists_at?_of_get? {node : CommandTree} (h : root.get? words = some node) :
    ∃ path, root.at? path = some node := by
  induction words using reverseRecOn generalizing node with
  | nil => exact ⟨[], h⟩
  | append_singleton words word ih =>
    rw [get?, foldlM_append] at h
    obtain ⟨owner, howner, h⟩ := bind_eq_some_iff.1 h
    obtain ⟨path, hpath⟩ := ih howner
    obtain ⟨child, hchild, h⟩ := bind_eq_some_iff.1 h
    obtain rfl : child = node := some.inj h
    obtain ⟨entries, hentries, hlookup⟩ := bind_eq_some_iff.1 hchild
    obtain ⟨place, target, htarget, rfl⟩ := exists_of_followers? hpath hentries
    exact ⟨place ++ [word], by rw [at?_snoc htarget, hlookup]⟩

/-- The way that goes on along words, and the node to which it leads. -/
def follow? (root : CommandTree) : Path → Way × CommandTree → Option (Way × CommandTree)
  | [], place => some place
  | word :: words, (way, node) =>
    ((root.following node).lookup word).bind fun child => follow? root words (way.step word child, child)

theorem Leads.follow? {place place' : Way × CommandTree}
    (h : Leads root place.1 place.2) (hfollow : root.follow? words place = some place') :
    Leads root place'.1 place'.2 := by
  induction words generalizing place with
  | nil =>
    cases hfollow
    exact h
  | cons word words ih =>
    obtain ⟨child, hchild, hfollow⟩ := bind_eq_some_iff.1 hfollow
    exact ih (h.step (Entries.mem_of_lookup hchild)) hfollow

def prototypeAt? (root : CommandTree) (words : Path) : Option Prototype :=
  ((root.follow? words ({}, root)).filter fun place => place.1.scope ≠ [] ∧ place.2.executable).map fun place =>
    place.1.prototype

theorem named_of_prototypeAt? {p : Prototype} (h : root.prototypeAt? words = some p) : root.Named p := by
  obtain ⟨⟨way, node⟩, hplace, rfl⟩ := map_eq_some_iff.1 h
  obtain ⟨hfollow, hends⟩ := filter_eq_some_iff.1 hplace
  obtain ⟨hscope, hexec⟩ := of_decide_eq_true hends
  exact ⟨way, node, Leads.start.follow? hfollow, hscope, .inl ⟨hexec, rfl⟩⟩

end CommandTree

namespace Spec

variable {spec : Spec}

theorem regular_of_bundled (h : withTrees [] true = .ok spec) : spec.tree.Regular :=
  (bundled_ok h).1 ▸ bundled_regular.resolve bundled_resolve

theorem prototype?_of_named (h : withTrees [] true = .ok spec) {p : Prototype} (hp : spec.tree.Named p) :
    spec.prototype? p.identifier = some p :=
  hp.lookup (regular_of_bundled h) (bundled_ok h).2

/-- The slots of the bundled commands that the rules look at: of the name and the block of a function, and of the command
that is run. -/
def nameSlot : Slot := ⟨["function", "name"], some "minecraft:function"⟩

def bodySlot : Slot := ⟨["function", "name", "body"], some "mecha:nested_root"⟩

def runSlot : Slot := ⟨["execute", "run", Slot.subcommandName], none⟩

theorem prototype?_call (h : withTrees [] true = .ok spec) : spec.prototype? call =
    some ⟨call, [.literal "function", .argument nameSlot], [1]⟩ := by
  have hat : spec.tree.prototypeAt? ["function", "name"] =
      some ⟨call, [.literal "function", .argument nameSlot], [1]⟩ := by
    rw [(bundled_ok h).1]
    decide +kernel
  exact prototype?_of_named h (named_of_prototypeAt? hat)

theorem prototype?_definition (h : withTrees [] true = .ok spec) : spec.prototype? definition =
    some ⟨definition, [.literal "function", .argument nameSlot, .argument bodySlot], [1, 2]⟩ := by
  have hat : spec.tree.prototypeAt? ["function", "name", "body"] =
      some ⟨definition, [.literal "function", .argument nameSlot, .argument bodySlot], [1, 2]⟩ := by
    rw [(bundled_ok h).1]
    decide +kernel
  exact prototype?_of_named h (named_of_prototypeAt? hat)

theorem prototype?_run (h : withTrees [] true = .ok spec) : spec.prototype? identifier =
      some ⟨identifier, [.literal "execute", .literal "run", .argument runSlot], [2]⟩ ∧
    spec.sharedEntries runSlot = 0 := by
  have hrun : (spec.tree.follow? ["execute", "run"] ({}, spec.tree)).map (fun place =>
      (place.1.scope, place.1.subcommand.prototype, place.2.redirect?)) = some (["execute", "run"],
        ⟨identifier, [.literal "execute", .literal "run", .argument runSlot], [2]⟩, some []) := by
    rw [(bundled_ok h).1]
    decide +kernel
  have hwhole : spec.tree.subcommand = true := by
    rw [(bundled_ok h).1]
    decide +kernel
  obtain ⟨⟨way, node⟩, hfollow, hplace⟩ := map_eq_some_iff.1 hrun
  obtain ⟨hscope, hplace⟩ := Prod.mk.inj hplace
  obtain ⟨hproto, hred⟩ := Prod.mk.inj hplace
  simp only at hscope hred
  have hway : Leads spec.tree way node := Leads.start.follow? hfollow
  have hne : way.scope ≠ [] := by
    rw [hscope]
    exact cons_ne_nil _ _
  constructor
  · have hnamed : spec.tree.Named way.subcommand.prototype :=
      ⟨way, node, hway, hne, .inr ⟨⟨[], spec.tree, hred, rfl, hwhole⟩, rfl⟩⟩
    rw [hproto] at hnamed
    exact prototype?_of_named h hnamed
  · have hget := hway.get? (regular_of_bundled h)
    rw [hscope, show ["execute", "run"] = runSlot.owner from rfl] at hget
    simp only [sharedEntries, hget, hred]
    rfl

theorem sharedEntries_le_one (h : withTrees [] true = .ok spec) (slot : Slot) : spec.sharedEntries slot ≤ 1 := by
  have hlen : ∀ path ∈ spec.tree.paths, ∀ node ∈ spec.tree.at? path, (node.redirect?.map length).getD 0 ≤ 1 := by
    rw [(bundled_ok h).1]
    decide +kernel
  rw [sharedEntries]
  split
  · rename_i node hnode
    obtain ⟨path, hpath⟩ := exists_at?_of_get? hnode
    exact hlen path (mem_paths_of_at? hpath) node hpath
  · exact Nat.zero_le 1

theorem suits_bundled (h : withTrees [] true = .ok spec) : spec.Suits where
  functions := ⟨_, _, _, rfl, rfl, prototype?_call h, prototype?_definition h⟩
  runs := ⟨_, runSlot, (prototype?_run h).1, rfl, rfl, (prototype?_run h).2⟩
  shared := sharedEntries_le_one h

end Spec

/-! ### Nodes -/

variable {n m k : Node} {s : Spec} {o : Options}

theorem Spec.agreesAt_of_part (hpart : n.kind.isPart = true)
    (h : ∀ child ∈ n.children, child.kind.isPart = true) : s.AgreesAt n := by
  obtain ⟨form, span⟩ := n
  cases form with
  | root lines | command identifier arguments => cases hpart
  | _ => exact h

namespace Options

open Spec (Counts Fills AgreesAt Agrees countFrom)

variable {d : Definition} {ms ns arguments : List Node}

/-- A tree agrees with the prototypes, and may stand in the place of another one: a command leaves out as many entries
as the other one does. -/
def AgreesLike (s : Spec) (n m : Node) : Prop :=
  s.Agrees m ∧ ∀ shared, s.Counts (countFrom shared) n → s.Counts (countFrom shared) m

theorem kind_settleAt (o : Options) (n : Node) : (o.settleAt n).kind = n.kind := by
  by_cases hroot : n.kind = .root
  · rw [settleAt_of_root hroot]
    split
    · exact kind_inline n
    · rfl
  · cases hdef : o.definitionAt? n with
    | none => rw [settleAt_of_not_root hroot hdef]
    | some d =>
      obtain ⟨hform, hsettled⟩ := settleAt_of_definitionAt? hdef
      rw [hsettled, kind_of_command hform, kind_of_command rfl]

theorem kind_settledBelow (o : Options) (n : Node) : (o.settledBelow n).kind = n.kind :=
  kind_withChildren (length_map _)

theorem kind_settle (o : Options) (n : Node) : (o.settle n).kind = n.kind := by
  rw [settle_eq, kind_settleAt, kind_settledBelow]

theorem agrees_unwrap (hs : s.Suits) (h : s.Agrees n) (hcounts : s.Counts argumentCount n) :
    s.Agrees (unwrap n) ∧ s.Counts argumentCount (unwrap n) := by
  fun_induction unwrap n with
  | case2 n _ => exact ⟨h, hcounts⟩
  | case1 n m htarget ih =>
    obtain ⟨whole, slot, hwhole, hslots, hsub, hshared⟩ := hs.runs
    obtain ⟨hat, hchildren⟩ := agrees_iff.1 h
    refine ih (hchildren m (target?_mem htarget)) ?_
    obtain ⟨form, span⟩ := n
    cases form with
    | command identifier arguments =>
      simp only [target?] at htarget
      split at htarget
      · rename_i hid
        subst hid
        obtain ⟨whole', hwhole', hlen, hfills⟩ := hat
        cases hwhole.symm.trans hwhole'
        obtain ⟨rest, rfl⟩ := head?_eq_some_iff.1 htarget
        have hm := hfills (slot, m) (by simp [assigned, hslots])
        rw [Fills, if_pos hsub, hshared, countFrom_zero] at hm
        exact hm.2
      · cases htarget
    | _ => cases htarget

theorem agrees_inline (hs : s.Suits) (h : s.Agrees n) : s.Agrees (ExecuteRun.inline n) := by
  obtain ⟨form, span⟩ := n
  cases form with
  | root lines =>
    obtain ⟨hat, hchildren⟩ := agrees_iff.1 h
    have hlines : ∀ line ∈ lines.map unwrap, s.Agrees line ∧ s.Counts argumentCount line :=
      forall_mem_map.2 fun line hline => agrees_unwrap hs (hchildren line hline) (hat line hline)
    exact agrees_iff.2 ⟨fun line hline => (hlines line hline).2, fun line hline => (hlines line hline).1⟩
  | _ => exact h

theorem fills_of_definition (hs : s.Suits) (hat : s.AgreesAt n)
    (hform : n.form = .command definition [d.name, d.body]) : d.name.kind ≠ .command ∧ d.body.kind ≠ .command := by
  obtain ⟨word, name, body, hname, hbody, -, hdef⟩ := hs.functions
  have hfills := hat.command hform hdef
  have hfillsName := hfills (name, d.name) mem_cons_self
  have hfillsBody := hfills (body, d.body) (mem_cons_of_mem _ mem_cons_self)
  rw [Fills, hname] at hfillsName
  rw [Fills, hbody] at hfillsBody
  exact ⟨hfillsName, hfillsBody⟩

theorem agrees_call (hs : s.Suits) (h : s.Agrees n)
    (hform : n.form = .command definition [d.name, d.body]) (span : Span) :
    AgreesLike s n ⟨.command call [d.name], span⟩ := by
  obtain ⟨word, name, body, hname, -, hcall, hdef⟩ := hs.functions
  obtain ⟨hat, hchildren⟩ := agrees_iff.1 h
  constructor
  · refine agrees_iff.2 ⟨⟨_, hcall, le_refl 1, ?_⟩, ?_⟩
    · rintro x hx
      obtain rfl : x = (name, d.name) := mem_singleton.1 hx
      rw [Fills, hname]
      exact (fills_of_definition hs hat hform).1
    · intro child hchild
      obtain rfl : child = d.name := mem_singleton.1 hchild
      refine hchildren d.name ?_
      rw [Node.children, hform]
      exact mem_cons_self
  · intro shared hcounts identifier arguments hcallform
    cases hcallform
    obtain ⟨whole, hwhole, hcount⟩ := hcounts _ _ hform
    cases hdef.symm.trans hwhole
    -- A definition with both its arguments leaves out at most the word before the name.
    have hle : shared ≤ 1 := by
      simp only [countFrom, relativeTo, filter_cons, filter_nil] at hcount
      by_contra hgt
      rw [if_neg (by simp; omega)] at hcount
      split at hcount <;> cases hcount
    refine ⟨_, hcall, ?_⟩
    rcases Nat.le_one_iff_eq_zero_or_eq_one.1 hle with rfl | rfl <;> rfl

theorem agrees_settleAt (hs : s.Suits) (h : s.Agrees n) : AgreesLike s n (o.settleAt n) := by
  by_cases hroot : n.kind = .root
  · refine ⟨?_, fun shared _ identifier arguments hform => ?_⟩
    · rw [settleAt_of_root hroot]
      split
      · exact agrees_inline hs h
      · exact h
    · have hkind := o.kind_settleAt n
      rw [kind_of_command hform, hroot] at hkind
      cases hkind
  · cases hdef : o.definitionAt? n with
    | none =>
      rw [settleAt_of_not_root hroot hdef]
      exact ⟨h, fun _ hcounts => hcounts⟩
    | some d =>
      obtain ⟨hform, hsettled⟩ := settleAt_of_definitionAt? hdef
      rw [hsettled]
      exact agrees_call hs h hform n.span

/-! ### Trees -/

theorem form_settledBelow_command {identifier : String} (hform : n.form = .command identifier arguments) :
    (o.settledBelow n).form = .command identifier (arguments.map o.settle) := by
  rw [settledBelow, Node.children, hform]
  exact form_withChildren_command hform (length_map _)

def Fits (s : Spec) (n m : Node) : Prop := AgreesLike s n m ∧ m.kind = n.kind

theorem fits_settleAt (hs : s.Suits) (h : s.Agrees n) : Fits s n (o.settleAt n) :=
  ⟨agrees_settleAt hs h, o.kind_settleAt n⟩

theorem Fits.trans (h : Fits s n m) (h' : Fits s m k) : Fits s n k :=
  ⟨⟨h'.1.1, fun shared hcounts => h'.1.2 shared (h.1.2 shared hcounts)⟩, h'.2.trans h.2⟩

theorem Fits.fills {slot : Slot} (h : Fits s n m) (hfills : s.Fills slot n) : s.Fills slot m := by
  rw [Fills, h.2]
  rw [Fills] at hfills
  split
  · rename_i hsub
    rw [if_pos hsub] at hfills
    exact ⟨hfills.1, h.1.2 _ hfills.2⟩
  · rename_i hsub
    rwa [if_neg hsub] at hfills

theorem fills_zip {slots : List Slot} (h : Forall₂ (Fits s) ns ms) (hfills : ∀ x ∈ slots.zip ns, s.Fills x.1 x.2) :
    ∀ x ∈ slots.zip ms, s.Fills x.1 x.2 := by
  induction h generalizing slots with
  | nil => exact hfills
  | cons hfits _ ih =>
    cases slots with
    | nil => exact forall_mem_nil _
    | cons slot slots =>
      rw [zip_cons_cons, forall_mem_cons] at hfills ⊢
      exact ⟨hfits.fills hfills.1, ih hfills.2⟩

theorem exists_fits (h : Forall₂ (Fits s) ns ms) : ∀ m ∈ ms, ∃ n ∈ ns, Fits s n m := by
  induction h with
  | nil => exact forall_mem_nil _
  | @cons n m ns ms hfits _ ih =>
    refine forall_mem_cons.2 ⟨⟨n, mem_cons_self, hfits⟩, fun m hm => ?_⟩
    obtain ⟨n, hn, hfits⟩ := ih m hm
    exact ⟨n, mem_cons_of_mem _ hn, hfits⟩

theorem agreesAt_withChildren (hat : s.AgreesAt n) (h : Forall₂ (Fits s) n.children ms) :
    s.AgreesAt (n.withChildren ms) := by
  have hlen := h.length_eq.symm
  rcases n.isPart_or with hpart | ⟨lines, hform⟩ | ⟨identifier, arguments, hform⟩
  · refine agreesAt_of_part (by rwa [kind_withChildren hlen]) ?_
    rw [children_withChildren hlen]
    intro m hm
    obtain ⟨c, hc, hfits⟩ := exists_fits h m hm
    rw [hfits.2]
    exact hat.part hpart c hc
  · rw [Node.children, hform] at h
    rw [AgreesAt, form_withChildren_root hform h.length_eq.symm]
    intro m hm
    obtain ⟨line, hline, hfits⟩ := exists_fits h m hm
    have hcounts := hat.root hform line hline
    rw [← countFrom_zero] at hcounts ⊢
    exact hfits.1.2 0 hcounts
  · rw [Node.children, hform] at h
    rw [AgreesAt, hform] at hat
    rw [AgreesAt, form_withChildren_command hform h.length_eq.symm]
    obtain ⟨whole, hwhole, hassigned, hfills⟩ := hat
    refine ⟨whole, hwhole, by rwa [← h.length_eq], ?_⟩
    rw [assigned, ← h.length_eq]
    exact fills_zip h hfills

theorem counts_withChildren {shared : Nat} (hlen : ms.length = n.children.length) (h : s.Counts (countFrom shared) n)
    : s.Counts (countFrom shared) (n.withChildren ms) := by
  intro identifier arguments hcmd
  have hkind := kind_withChildren hlen
  rw [kind_of_command hcmd] at hkind
  obtain ⟨form, span⟩ := n
  cases form with
  | command identifier' arguments' =>
    rw [form_withChildren_command rfl hlen] at hcmd
    cases hcmd
    rw [hlen]
    exact h _ arguments' rfl
  | _ => cases hkind

theorem fits_withChildren (h : s.Agrees n) (hchildren : Forall₂ (Fits s) n.children ms) :
    Fits s n (n.withChildren ms) := by
  have hlen := hchildren.length_eq.symm
  refine ⟨⟨agrees_iff.2 ⟨agreesAt_withChildren (agrees_iff.1 h).1 hchildren, ?_⟩, fun _ =>
    counts_withChildren hlen⟩, kind_withChildren hlen⟩
  rw [children_withChildren hlen]
  intro m hm
  obtain ⟨c, -, hfits⟩ := exists_fits hchildren m hm
  exact hfits.1.1

theorem agrees_body_of_definitionAt? (hs : s.Suits) (h : s.Agrees n) (hd : o.definitionAt? n = some d) :
    s.Agrees d.body ∧ d.body.kind ≠ .command := by
  have hform := (settleAt_of_definitionAt? hd).1
  obtain ⟨hat, hchildren⟩ := agrees_iff.1 h
  refine ⟨hchildren d.body ?_, (fills_of_definition hs hat hform).2⟩
  rw [Node.children, hform]
  exact mem_cons_of_mem _ mem_cons_self

/-- Whatever the rules do to trees that agree with the prototypes, what they put in their places may stand there, and
what they take out of them agrees with the prototypes too, and is no command. -/
theorem Reworked.fits (hs : s.Suits) {ds ls : List Definition} (h : o.Reworked ns ds ls ms) (hns : ∀ n ∈ ns, s.Agrees n) :
    Forall₂ (Fits s) ns ms ∧ ∀ d ∈ ds, s.Agrees d.body ∧ d.body.kind ≠ .command := by
  induction h with
  | nil => exact ⟨.nil, forall_mem_nil _⟩
  | cons _ _ ihfirst ihrest =>
    obtain ⟨hn, hns⟩ := forall_mem_cons.1 hns
    obtain ⟨hfits, hbodies⟩ := ihfirst (forall_mem_singleton.2 hn)
    obtain ⟨hfits', hbodies'⟩ := ihrest hns
    exact ⟨.cons (forall₂_cons.1 hfits).1 hfits', forall_mem_append.2 ⟨hbodies, hbodies'⟩⟩
  | settled _ ih =>
    have hn := forall_mem_singleton.1 hns
    obtain ⟨hfits, hbodies⟩ := ih (agrees_iff.1 hn).2
    have hbelow := fits_withChildren hn hfits
    refine ⟨.cons (hbelow.trans (fits_settleAt hs hbelow.1.1)) .nil, forall_mem_append.2 ⟨hbodies, ?_⟩⟩
    intro d hd
    exact agrees_body_of_definitionAt? hs hbelow.1.1 (mem_toList.1 hd)
  | left _ _ ih =>
    have hn := forall_mem_singleton.1 hns
    obtain ⟨hfits, hbodies⟩ := ih (agrees_iff.1 hn).2
    exact ⟨.cons (fits_withChildren hn hfits) .nil, hbodies⟩

theorem reworked_map (h : ∀ n ∈ ns, o.Reworked [n] (o.definitions n) [] [o.settle n]) :
    o.Reworked ns (ns.flatMap o.definitions) [] (ns.map o.settle) := by
  induction ns with
  | nil => exact .nil
  | cons n ns ih =>
    obtain ⟨hn, hns⟩ := forall_mem_cons.1 h
    exact .cons hn (ih hns)

theorem reworked_settle (o : Options) (n : Node) : o.Reworked [n] (o.definitions n) [] [o.settle n] := by
  induction n using induct with
  | hstep n ih =>
    rw [settle_eq, definitions_eq]
    exact .settled (reworked_map ih)

/-- What the rules make of a tree that agrees with the prototypes agrees with them too. -/
theorem agrees_settle (hs : s.Suits) (h : s.Agrees n) : AgreesLike s n (o.settle n) :=
  (forall₂_cons.1 ((o.reworked_settle n).fits hs (forall_mem_singleton.2 h)).1).1.1

theorem agrees_body (hs : s.Suits) (h : s.Agrees n) (hd : d ∈ o.definitions n) :
    s.Agrees d.body ∧ d.body.kind ≠ .command :=
  ((o.reworked_settle n).fits hs (forall_mem_singleton.2 h)).2 d hd

end Options

/-! ### Printing -/

variable {spec : Spec} {options : ParseOptions} {source : String} {tree : Node}

theorem Parser.agrees_of_bundled (hspec : withTrees [] true = .ok spec)
    (hparse : ({ tree := spec.tree, options } : Parser).parse source = .ok tree) :
    spec.Agrees tree ∧ tree.kind ≠ .command := by
  have hroot := regular_of_bundled hspec
  refine ⟨agrees_of_parse hroot (bundled_ok hspec).2 rfl Registry.standard_empty hparse, ?_⟩
  rw [parse_eq] at hparse
  obtain ⟨x, -, rfl⟩ := map_ok hparse
  exact Kind.noConfusion

theorem Printer.exists_render (hspec : withTrees [] true = .ok spec) (h : spec.Agrees n)
    (hkind : n.kind ≠ .command) (indent : Nat) : ∃ text, ({ spec, indent } : Printer).render n = .ok text := by
  have haligned : ∀ identifier whole, spec.prototype? identifier = some whole →
      Aligned whole.signature whole.offsets := fun _ _ hwhole =>
    aligned_of_prototype? (bundled_ok hspec).2 hwhole
  obtain ⟨text, htext⟩ : ∃ text, ({ spec, indent } : Printer).print 0 none n = .ok (text, none) :=
    print_ok haligned h (fun _ => rfl) fun _ _ hform => absurd (kind_of_command hform) hkind
  exact ⟨text, by rw [render, htext]⟩

theorem Printer.exists_render_settle (hspec : withTrees [] true = .ok spec)
    (hparse : ({ tree := spec.tree, options } : Parser).parse source = .ok tree)
    (o : Options) (indent : Nat) : (∃ text, ({ spec, indent } : Printer).render (o.settle tree) = .ok text) ∧
      ∀ d ∈ o.definitions tree, ∃ text, ({ spec, indent } : Printer).render d.body = .ok text := by
  obtain ⟨hagrees, hkind⟩ := Parser.agrees_of_bundled hspec hparse
  have hsuits := suits_bundled hspec
  constructor
  · refine exists_render hspec (agrees_settle hsuits hagrees).1 ?_ indent
    rwa [kind_settle]
  · intro d hd
    obtain ⟨hbody, hkind⟩ := agrees_body hsuits hagrees hd
    exact exists_render hspec hbody hkind indent

end Mcfunction
