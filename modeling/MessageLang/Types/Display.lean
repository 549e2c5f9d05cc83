import MessageLang.Types.Table

namespace MessageLang.TypeTable

/-- The text of a type whose parts are shown to at most so many levels. -/
def displayWithin (t : TypeTable) : Nat → TypeId → String
  | levels, id =>
    let d := t.get id
    match d.name, levels with
    | some name, _ => name
    | none, 0 => "..."
    | none, levels + 1 =>
      let text := t.displayWithin levels
      if !d.variants.isEmpty then " | ".intercalate (d.variants.map text)
      else
        match d.shape, d.symbols, d.handlers with
        | .compound fields, _, _ =>
          let item (f : Field) := (if f.isPositional then "" else f.name ++ ": ") ++ text f.type
          "(" ++ ", ".intercalate (fields.map item) ++ ")"
        | _, [], [(guard, answer)] => text guard ++ " -> " ++ text answer
        | _, symbols, handlers =>
          let answers := symbols.map fun (symbol, answer) => " ." ++ symbol ++ " -> " ++ text answer
          let calls := handlers.map fun (guard, answer) =>
            " " ++ text guard ++ " -> " ++ text answer
          "\x7b" ++ ";".intercalate (answers ++ calls) ++ " \x7d"

/-- A type as it is written: by its name if it has one, else as a union, a list of fields, a
function or a list of what it answers. Types may be recursive, so parts more than six levels
down show as dots. -/
def display (t : TypeTable) (id : TypeId) : String := t.displayWithin 6 id

end MessageLang.TypeTable
