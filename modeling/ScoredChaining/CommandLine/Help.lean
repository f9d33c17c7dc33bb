import ScoredChaining.CommandLine.Usage

/-!
The texts that the program shows when it is asked for help or its version.
-/

namespace ScoredChaining.CommandLine

/-- The lines of a text, each with its end. -/
def ofLines (lines : List String) : String :=
  String.join (lines.map fun line => line ++ "\n")

/-- The name and the version of the program. -/
def versionText : String := "uberts 0.3.0\n"

/-- Help about a topic. -/
def Topic.text : Topic → String
  | .program => ofLines
    ["Incremental hypergraph inference engine",
      "",
      "Usage: uberts [OPTIONS] <COMMAND>",
      "",
      "Commands:",
      "  run     Run inference over every document of a fact file",
      "  rules   Compile rules and print the trie paths each one is entered through",
      "  config  Print the effective configuration as TOML",
      "  help    Print this message or the help of the given subcommand(s)",
      "",
      "Options:",
      "      --config <CONFIG>  TOML configuration file",
      "  -h, --help             Print help",
      "  -V, --version          Print version"]
  | .run => ofLines
    ["Run inference over every document of a fact file",
      "",
      "Usage: uberts run [OPTIONS] --facts <FACTS> --rules <RULES>",
      "",
      "Options:",
      "      --config <CONFIG>        TOML configuration file",
      "      --facts <FACTS>          Fact file (`def`, `schema`, `startdoc`, `x`, `y` lines)",
      "      --rules <RULES>          Rule file, one `lhs => rhs` rule per line",
      "      --priority <PRIORITY>    Agenda priority, e.g. \"easyfirst-linear\" or " ++
        "\"1*easyfirst + 0.5*leftright\"",
      "      --threshold <THRESHOLD>  Commit candidates scoring above this threshold",
      "      --decision <DECISION>    Group constraint such as \"AT_LEAST_ONE:ner3(i,t,b):i\" " ++
        "(repeatable)",
      "      --max-pops <MAX_POPS>    Stop each document after this many pops",
      "      --oracle                 Commit exactly the gold (`y`) facts instead of asking the " ++
        "decision functions",
      "      --trajectory             Also print every popped candidate with its score, label and " ++
        "outcome",
      "      --json                   Print one JSON object per document instead of text",
      "  -h, --help                   Print help"]
  | .rules => ofLines
    ["Compile rules and print the trie paths each one is entered through",
      "",
      "Usage: uberts rules [OPTIONS] --facts <FACTS> --rules <RULES>",
      "",
      "Options:",
      "      --config <CONFIG>  TOML configuration file",
      "      --facts <FACTS>    Fact file supplying the `def` lines",
      "      --rules <RULES>    Rule file",
      "  -h, --help             Print help"]
  | .config => ofLines
    ["Print the effective configuration as TOML",
      "",
      "Usage: uberts config [OPTIONS]",
      "",
      "Options:",
      "      --config <CONFIG>  TOML configuration file",
      "  -h, --help             Print help"]
  | .help => ofLines
    ["Print this message or the help of the given subcommand(s)",
      "",
      "Usage: uberts help [COMMAND]...",
      "",
      "Arguments:",
      "  [COMMAND]...  Print help for the subcommand(s)"]

end ScoredChaining.CommandLine
