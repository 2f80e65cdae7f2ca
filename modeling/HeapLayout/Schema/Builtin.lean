import HeapLayout.Schema.FromYaml

/-!
# The built-in schema

The heap objects of the managed runtime itself, which are used when no schema file is given.
-/

namespace HeapLayout.Schema.Builtin

/-- The lines of the schema. -/
def lines : List String :=
  ["description: \"Heap objects of the managed runtime\"",
    "",
    "layouts:",
    "  # String: UTF-16 code units with a cached hash",
    "  - name: str",
    "    category: string",
    "    fields:",
    "      - \x7b name: len, type: uint32 \x7d",
    "      - \x7b name: hash, type: uint32 \x7d",
    "      - \x7b name: data, type: uint16, size-field: len \x7d",
    "",
    "  # String table used for hash consing",
    "  - name: strtbl",
    "    category: refptr",
    "    fields:",
    "      - \x7b name: cap, type: uint32 \x7d",
    "      - \x7b name: num_strs, type: uint32, init: 0 \x7d",
    "      - \x7b name: str, type: refptr, size-field: cap, init: \"null\" \x7d",
    "",
    "  # Object: shape pointer plus property word/type slots",
    "  - name: obj",
    "    category: object",
    "    fields:",
    "      - \x7b name: cap, type: uint32 \x7d",
    "      - \x7b name: shape, type: shapeptr \x7d",
    "      - \x7b name: word, type: uint64, size-field: cap, type-field: type \x7d",
    "      - \x7b name: type, type: uint8, size-field: cap \x7d",
    "",
    "  # Function closure; the function pointer lives in the first object slot",
    "  - name: clos",
    "    extends: obj",
    "    category: closure",
    "    fields:",
    "      - \x7b name: num_cells, type: uint32 \x7d",
    "      - \x7b name: cell, type: refptr, size-field: num_cells, init: \"null\" \x7d",
    "",
    "  # Closure cell holding one boxed value",
    "  - name: cell",
    "    category: refptr",
    "    fields:",
    "      - \x7b name: word, type: uint64, init: undef_word, type-field: type \x7d",
    "      - \x7b name: type, type: uint8, init: undef_type \x7d",
    "",
    "  # Array object; elements live in a separate table",
    "  - name: arr",
    "    extends: obj",
    "    category: array",
    "    fields:",
    "      - \x7b name: tbl, type: refptr \x7d",
    "      - \x7b name: len, type: uint32 \x7d",
    "",
    "  # Array element table",
    "  - name: arrtbl",
    "    category: refptr",
    "    fields:",
    "      - \x7b name: cap, type: uint32 \x7d",
    "      - \x7b name: word, type: uint64, init: undef_word, size-field: cap, type-field: type \x7d",
    "      - \x7b name: type, type: uint8, init: undef_type, size-field: cap \x7d"]

/-- The text of the schema. -/
def text : String :=
  String.join (lines.map (· ++ "\n"))

end HeapLayout.Schema.Builtin
