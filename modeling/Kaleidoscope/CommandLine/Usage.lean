import Kaleidoscope.CommandLine.Flag
import Kaleidoscope.Report

/-! The usage and help texts, laid out for eighty columns. -/

set_option autoImplicit false

namespace Kaleidoscope.Usage

def program : String := "main.py"

def usageLines : List String :=
  [s!"usage: {program} [-h] [--file FILE | --interactive] [--print-tokens] [--no-ast]",
   "               [--surface] [--dump-ast DUMP_AST] [--viz-ast VIZ_AST]",
   "               [--viz-format VIZ_FORMAT] [--binop OP=PREC]"]

def optionLines : List String :=
  ["  -h, --help            show this help message and exit",
   "  --file FILE, -f FILE  Path to source file to process",
   "  --interactive, -i     Read constructs from stdin as they are typed",
   "  --print-tokens        Print tokens",
   "  --no-ast              Do not print the AST",
   "  --surface             Print each construct as fully parenthesized source",
   "  --dump-ast DUMP_AST   Path to write the parsed ASTs as JSON",
   "  --viz-ast VIZ_AST     Path (without extension) to write a Graphviz rendering",
   "                        of the ASTs",
   "  --viz-format VIZ_FORMAT",
   "                        Format for Graphviz output (svg, png, pdf, etc)",
   "  --binop OP=PREC       Add or override a binary operator precedence",
   "                        (repeatable)"]

def helpLines : List String :=
  usageLines ++
    ["", "Parse Kaleidoscope programs from a file or interactively from stdin", "", "options:"] ++
    optionLines

def help : List Print := helpLines.map (Print.line .output)

def refusal (e : UsageError) : List Print :=
  (usageLines ++ [s!"{program}: error: {e.message}"]).map (Print.line .diagnostics)

end Kaleidoscope.Usage
