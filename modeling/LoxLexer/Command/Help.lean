/-!
# Help

The two help texts of the command and its version.
-/

namespace LoxLexer.Help

def lines (ls : List String) : String := .join (ls.map (· ++ "\n"))

/-- Asked for with one dash. -/
def short : String :=
  lines [
    "Scan Lox scripts and print their tokens",
    "",
    "Usage: lox [OPTIONS] [SCRIPT]...",
    "",
    "Arguments:",
    "  [SCRIPT]...  Lox scripts to scan. Starts an interactive prompt when omitted",
    "",
    "Options:",
    "      --format <FORMAT>  Token output format [default: text] [possible values: text, json]",
    "      --pretty           Render diagnostics with source snippets",
    "  -v, --verbose          Log scanner activity to stderr (same as `RUST_LOG=debug`)",
    "  -h, --help             Print help (see more with '--help')",
    "  -V, --version          Print version"]

/-- Asked for with two dashes. -/
def long : String :=
  lines [
    "Scan Lox scripts and print their tokens",
    "",
    "Usage: lox [OPTIONS] [SCRIPT]...",
    "",
    "Arguments:",
    "  [SCRIPT]...",
    "          Lox scripts to scan. Starts an interactive prompt when omitted",
    "",
    "Options:",
    "      --format <FORMAT>",
    "          Token output format",
    "",
    "          Possible values:",
    "          - text: One `Kind lexeme literal` line per token",
    "          - json: A JSON document with tokens and diagnostics",
    "          ",
    "          [default: text]",
    "",
    "      --pretty",
    "          Render diagnostics with source snippets",
    "",
    "  -v, --verbose",
    "          Log scanner activity to stderr (same as `RUST_LOG=debug`)",
    "",
    "  -h, --help",
    "          Print help (see a summary with '-h')",
    "",
    "  -V, --version",
    "          Print version"]

def version : String := "lox 0.1.0\n"

/-- What is told when the arguments cannot be understood. -/
def usage : String := "Usage: lox [OPTIONS] [SCRIPT]...\n\nFor more information, try '--help'.\n"

end LoxLexer.Help
