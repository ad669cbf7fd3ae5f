import Mcfunction.Proofs.Alike
import Mcfunction.Proofs.Likeness
import Mcfunction.Proofs.Rewriting

/-! Comments. They may stand between any two lines, also inside blocks, and are kept or dropped. Main statement: a text is
read without comments as it is read with them, and the comments removed from every block of the tree. -/

namespace Mcfunction

open List Node

namespace Node

/-- The block without the comments among its lines; other nodes are left as they are. -/
def dropComments (n : Node) : Node :=
  match n.form with
  | .root lines => ⟨.root (lines.filter (·.kind ≠ .comment)), n.span⟩
  | _ => n

def withoutComments (n : Node) : Node := n.rewrite dropComments

variable {n : Node}

theorem dropComments_of_ne_root (h : n.kind ≠ .root) : n.dropComments = n := by
  rw [dropComments]
  split
  · rename_i lines hform
    rw [kind, hform] at h
    exact absurd rfl h
  · rfl

theorem kind_dropComments (n : Node) : n.dropComments.kind = n.kind := by
  rw [dropComments]
  split
  · rename_i lines hform
    rw [kind, kind, hform]
    rfl
  · rfl

theorem kind_withoutComments (n : Node) : n.withoutComments.kind = n.kind := by
  rw [withoutComments, rewrite_eq, kind_dropComments, kind_withChildren (length_map _)]

def linesWithoutComments (lines : List Node) : List Node := (lines.map withoutComments).filter (·.kind ≠ .comment)

theorem withoutComments_root (lines : List Node) (span : Span) :
    withoutComments ⟨.root lines, span⟩ = ⟨.root (linesWithoutComments lines), span⟩ := by
  have hform : (withChildren ⟨.root lines, span⟩ (lines.map withoutComments)).form = .root (lines.map withoutComments) :=
    form_withChildren_root rfl (length_map _)
  rw [withoutComments, rewrite_eq]
  change dropComments (withChildren _ (lines.map withoutComments)) = _
  rw [dropComments, hform]
  rfl

theorem withoutComments_command (identifier : String) (arguments : List Node) (span : Span) :
    withoutComments ⟨.command identifier arguments, span⟩ =
      ⟨.command identifier (arguments.map withoutComments), span⟩ := by
  have hform : (withChildren ⟨.command identifier arguments, span⟩ (arguments.map withoutComments)).form =
      .command identifier (arguments.map withoutComments) := form_withChildren_command rfl (length_map _)
  rw [withoutComments, rewrite_eq]
  change dropComments (withChildren _ (arguments.map withoutComments)) = _
  rw [dropComments, hform]
  exact congrArg (mk · span) hform

theorem withoutComments_of_parts (h : ∀ m ∈ n.walk, m.kind.isPart = true) : n.withoutComments = n := by
  refine rewrite_of_fixed fun m hm => dropComments_of_ne_root fun hroot => ?_
  have hpart := h m (mem_walk.2 hm)
  rw [hroot] at hpart
  cases hpart

end Node

namespace Parser

open Node

/-- Readings of one text, the first with comments and the second without. -/
def dropping : InPlace where
  At _ := True
  Errors e g := g = e
  convert := withoutComments
  reaches _ _ := trivial
  refl _ := rfl
  furthest := by
    rintro e _ e' _ rfl rfl
    rfl
  command := withoutComments_command

theorem dropping_singles : dropping.likeness.Singles := by
  refine dropping.singles fun l properties c x hx => withoutComments_of_parts ?_
  exact (Leaf.read_placed hx).plain.isPart

theorem dropping_linewise (p : Parser) (multiline : Bool) :
    dropping.likeness.Linewise (p.under ⟨multiline, true⟩) ⟨multiline, false⟩
      fun ns ks => ks = linesWithoutComments ns := by
  refine dropping.linewise rfl rfl ?_ ?_ withoutComments_root
  · intro n ns hn
    exact filter_cons_of_pos (by simp [kind_withoutComments, hn])
  · intro c ns
    exact filter_cons_of_neg (by rw [kind_withoutComments]; exact Bool.false_ne_true)

/-- Keeping comments changes nothing else. Whatever the grammar and the text, and with or without blocks: without comments
it is refused with the same error as with them, or read as the same tree from which the comments of every block are
removed, with all spans as they are. -/
theorem parse_without_comments (p : Parser) (multiline : Bool) (source : String) :
    Parser.parse { p with options := { multiline, keepComments := false } } source =
      (Parser.parse { p with options := { multiline, keepComments := true } } source).map withoutComments := by
  change (p.under ⟨multiline, false⟩).parse source = ((p.under ⟨multiline, true⟩).parse source).map withoutComments
  have hstart : dropping.likeness.Cursors (.start source) (.start source) := ⟨rfl, trivial⟩
  rcases (dropping_linewise p multiline).parse_alike dropping_singles hstart with
    ⟨e, g, he, hg, heq⟩ | ⟨n, k, hn, hk, heq⟩
  · rw [he]
    exact hg.trans (congrArg Except.error heq)
  · rw [hn]
    exact hk.trans (congrArg Except.ok heq)

end Parser

end Mcfunction
