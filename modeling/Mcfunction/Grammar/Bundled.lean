import Mcfunction.Grammar.Tree

/-! The commands that are known without any further document. -/

namespace Mcfunction.CommandTree

def given (properties : Properties) (t : CommandTree) : CommandTree :=
  { t with properties? := some properties }

def runs (t : CommandTree) : CommandTree := { t with executable? := some true }

def leadsTo (target : Path) (t : CommandTree) : CommandTree := { t with redirect? := some target }

def before (children : List (String × CommandTree)) (t : CommandTree) : CommandTree := { t with children }

namespace Bundled

def word : CommandTree := { role := .literal }

def argument (reader : String) : CommandTree := { role := .argument, reader? := some reader }

def entity (type amount : String) : CommandTree :=
  argument "minecraft:entity" |>.given [("type", .string type), ("amount", .string amount)]

def scoreHolder (amount : String) : CommandTree :=
  argument "minecraft:score_holder" |>.given [("amount", .string amount)]

def integer (bounds : List (String × Int)) : CommandTree :=
  argument "brigadier:integer" |>.given (bounds.map fun (key, n) => (key, .number (.integer n)))

end Bundled

open Bundled in
def bundled : CommandTree :=
  { role := .root, children := [
    ("data", word |>.before [
      ("merge", word |>.before [
        ("entity", word |>.before [
          ("target", entity "entities" "single" |>.before [
            ("nbt", argument "minecraft:nbt_compound_tag" |>.runs)])])])]),
    ("effect", word |>.before [
      ("clear", word |>.runs |>.before [
        ("targets", entity "entities" "multiple" |>.runs)]),
      ("give", word |>.before [
        ("targets", entity "entities" "multiple" |>.before [
          ("effect", argument "minecraft:resource" |>.given [("registry", .string "minecraft:mob_effect")] |>.runs |>.before [
            ("seconds", integer [("min", 1), ("max", 1000000)] |>.runs |>.before [
              ("amplifier", integer [("min", 0), ("max", 255)] |>.runs |>.before [
                ("hideParticles", argument "brigadier:bool" |>.runs)])])])])])]),
    ("execute", word |>.before [
      ("align", word |>.before [
        ("axes", argument "minecraft:swizzle" |>.leadsTo ["execute"])]),
      ("as", word |>.before [
        ("targets", entity "entities" "multiple" |>.leadsTo ["execute"])]),
      ("at", word |>.before [
        ("targets", entity "entities" "multiple" |>.leadsTo ["execute"])]),
      ("if", word |>.before [
        ("block", word |>.before [
          ("pos", argument "minecraft:block_pos" |>.before [
            ("block", argument "minecraft:block_predicate" |>.runs |>.leadsTo ["execute"])])]),
        ("entity", word |>.before [
          ("entities", entity "entities" "multiple" |>.runs |>.leadsTo ["execute"])]),
        ("score", word |>.before [
          ("target", scoreHolder "single" |>.before [
            ("targetObjective", argument "minecraft:objective" |>.before [
              ("matches", word |>.before [
                ("range", argument "minecraft:int_range" |>.runs |>.leadsTo ["execute"])])])])])]),
      ("positioned", word |>.before [
        ("as", word |>.before [
          ("targets", entity "entities" "multiple" |>.leadsTo ["execute"])]),
        ("pos", argument "minecraft:vec3" |>.leadsTo ["execute"])]),
      ("run", word),
      ("store", word |>.before [
        ("result", word |>.before [
          ("score", word |>.before [
            ("targets", scoreHolder "multiple" |>.before [
              ("objective", argument "minecraft:objective" |>.leadsTo ["execute"])])])])]),
      ("unless", word |>.before [
        ("entity", word |>.before [
          ("entities", entity "entities" "multiple" |>.runs |>.leadsTo ["execute"])])])]),
    ("function", word |>.before [
      ("name", argument "minecraft:function" |>.runs |>.before [
        ("body", argument "mecha:nested_root" |>.runs)])]),
    ("gamemode", word |>.before [
      ("gamemode", argument "minecraft:gamemode" |>.runs |>.before [
        ("target", entity "players" "multiple" |>.runs)])]),
    ("give", word |>.before [
      ("targets", entity "players" "multiple" |>.before [
        ("item", argument "minecraft:item_stack" |>.runs |>.before [
          ("count", integer [("min", 1)] |>.runs)])])]),
    ("kill", word |>.runs |>.before [
      ("targets", entity "entities" "multiple" |>.runs)]),
    ("msg", word |>.leadsTo ["tell"]),
    ("say", word |>.before [
      ("message", argument "minecraft:message" |>.runs)]),
    ("scoreboard", word |>.before [
      ("objectives", word |>.before [
        ("add", word |>.before [
          ("objective", argument "brigadier:string" |>.given [("type", .string "word")] |>.before [
            ("criteria", argument "minecraft:objective_criteria" |>.runs |>.before [
              ("displayName", argument "minecraft:component" |>.runs)])])])]),
      ("players", word |>.before [
        ("add", word |>.before [
          ("targets", scoreHolder "multiple" |>.before [
            ("objective", argument "minecraft:objective" |>.before [
              ("score", integer [("min", 0)] |>.runs)])])]),
        ("operation", word |>.before [
          ("targets", scoreHolder "multiple" |>.before [
            ("targetObjective", argument "minecraft:objective" |>.before [
              ("operation", argument "minecraft:operation" |>.before [
                ("source", scoreHolder "multiple" |>.before [
                  ("sourceObjective", argument "minecraft:objective" |>.runs)])])])])]),
        ("set", word |>.before [
          ("targets", scoreHolder "multiple" |>.before [
            ("objective", argument "minecraft:objective" |>.before [
              ("score", argument "brigadier:integer" |>.runs)])])])])]),
    ("setblock", word |>.before [
      ("pos", argument "minecraft:block_pos" |>.before [
        ("block", argument "minecraft:block_state" |>.runs |>.before [
          ("destroy", word |>.runs),
          ("keep", word |>.runs),
          ("replace", word |>.runs)])])]),
    ("summon", word |>.before [
      ("entity", argument "minecraft:resource" |>.given [("registry", .string "minecraft:entity_type")] |>.runs |>.before [
        ("pos", argument "minecraft:vec3" |>.runs |>.before [
          ("nbt", argument "minecraft:nbt_compound_tag" |>.runs)])])]),
    ("tag", word |>.before [
      ("targets", entity "entities" "multiple" |>.before [
        ("add", word |>.before [
          ("name", argument "brigadier:string" |>.given [("type", .string "word")] |>.runs)]),
        ("list", word |>.runs),
        ("remove", word |>.before [
          ("name", argument "brigadier:string" |>.given [("type", .string "word")] |>.runs)])])]),
    ("teleport", word |>.before [
      ("location", argument "minecraft:vec3" |>.runs),
      ("destination", entity "entities" "single" |>.runs),
      ("targets", entity "entities" "multiple" |>.before [
        ("location", argument "minecraft:vec3" |>.runs |>.before [
          ("rotation", argument "minecraft:rotation" |>.runs)]),
        ("destination", entity "entities" "single" |>.runs)])]),
    ("tell", word |>.before [
      ("targets", entity "players" "multiple" |>.before [
        ("message", argument "minecraft:message" |>.runs)])]),
    ("tellraw", word |>.before [
      ("targets", entity "players" "multiple" |>.before [
        ("message", argument "minecraft:component" |>.runs)])]),
    ("time", word |>.before [
      ("add", word |>.before [
        ("time", argument "minecraft:time" |>.runs)]),
      ("set", word |>.before [
        ("time", argument "minecraft:time" |>.runs)])]),
    ("tp", word |>.leadsTo ["teleport"]),
    ("weather", word |>.before [
      ("clear", word |>.runs |>.before [
        ("duration", argument "minecraft:time" |>.runs)]),
      ("rain", word |>.runs |>.before [
        ("duration", argument "minecraft:time" |>.runs)]),
      ("thunder", word |>.runs |>.before [
        ("duration", argument "minecraft:time" |>.runs)])])] }

end Mcfunction.CommandTree
