import Predictive.Command.Options

namespace Predictive

def versionText : String := "ll1-helper 0.1.0\n"

def summaryText : String :=
"FIRST/FOLLOW sets, LL(1) tables and predictive parsing

Usage: ll1-helper [OPTIONS] <OUTPUTS>...

Arguments:
  <OUTPUTS>...  What to print [possible values: prod, nff, ll1, grid, validate]

Options:
  -f, --file <FILE>     Grammar file (defaults to stdin)
  -i, --input <TOKENS>  Whitespace separated tokens to validate (repeatable)
  -t, --trace           Print the parser steps of each validation
  -l, --latex           Print in LaTeX format
  -j, --json            Print in JSON format
  -v, --verbose...      Verbose output (-v, -vv, -vvv)
  -q, --quiet           Only print errors
  -h, --help            Print help (see more with '--help')
  -V, --version         Print version
"

def helpText : String :=
"FIRST/FOLLOW sets, LL(1) tables and predictive parsing

Usage: ll1-helper [OPTIONS] <OUTPUTS>...

Arguments:
  <OUTPUTS>...
          What to print

          Possible values:
          - prod:     Productions
          - nff:      Nullable, first and follow sets
          - ll1:      LL(1) parsing table cells, conflicts and verdict
          - grid:     LL(1) parsing table as a grid
          - validate: Validate the inputs given with -i

Options:
  -f, --file <FILE>
          Grammar file (defaults to stdin)

  -i, --input <TOKENS>
          Whitespace separated tokens to validate (repeatable)

  -t, --trace
          Print the parser steps of each validation

  -l, --latex
          Print in LaTeX format

  -j, --json
          Print in JSON format

  -v, --verbose...
          Verbose output (-v, -vv, -vvv)

  -q, --quiet
          Only print errors

  -h, --help
          Print help (see a summary with '-h')

  -V, --version
          Print version
"

def Notice.text : Notice → String
  | help => helpText
  | summary => summaryText
  | version => versionText

end Predictive
