/-!
# What the command says about itself

The lines are wrapped by hand, so that they are the same on every terminal.
-/

namespace LoweringIR.Command

/-- The name that the command goes by. -/
def name : String := "schemec-render"

/-- How the command is called. -/
def usage : String :=
  "usage: schemec-render [-h] [-o OUTPUT] [--ordering \x7bsorted,insertion\x7d]\n" ++
  "                      [--check-labels] [--log-level LOG_LEVEL]\n" ++
  "                      input\n"

/-- How the command is called, and what its arguments mean. -/
def help : String :=
  usage ++
  "\n" ++
  "Render a schemec IR tree\n" ++
  "\n" ++
  "positional arguments:\n" ++
  "  input                 schemec.tree/1 JSON document\n" ++
  "\n" ++
  "options:\n" ++
  "  -h, --help            show this help message and exit\n" ++
  "  -o OUTPUT, --output OUTPUT\n" ++
  "                        write text here instead of stdout\n" ++
  "  --ordering \x7bsorted,insertion\x7d\n" ++
  "                        output order for name sets, bindings and conflict\n" ++
  "                        graphs (default sorted)\n" ++
  "  --check-labels        reject assembly whose labels collide after mangling\n" ++
  "  --log-level LOG_LEVEL\n" ++
  "                        Logging level (default WARNING)\n"

end LoweringIR.Command
