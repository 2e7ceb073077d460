/-! The texts that explain the command line. -/
namespace Diversity.CommandLine

def usage : String := "Usage: vulnsynth [OPTIONS] <COMMAND>"

def help : String := "\n".intercalate [
  "Synthesize C program variants from a chunk/block description",
  "",
  usage,
  "",
  "Commands:",
  "  synth  Generate C source from a JSON program description",
  "  help   Print this message or the help of the given subcommand(s)",
  "",
  "Options:",
  "  -v, --verbose  Debug logging (overridden by VULNSYNTH_LOG)",
  "  -h, --help     Print help",
  "  -V, --version  Print version",
  ""]

def synthesisHelp : String := "\n".intercalate [
  "Generate C source from a JSON program description",
  "",
  "Usage: vulnsynth synth [OPTIONS] <INPUT>",
  "",
  "Arguments:",
  "  <INPUT>  Program description",
  "",
  "Options:",
  "      --config <CONFIG>",
  "          Manifest to read instead of a vulnsynth.toml next to the input",
  "  -v, --verbose",
  "          Debug logging (overridden by VULNSYNTH_LOG)",
  "      --seed <SEED>",
  "          Seed for the first variant",
  "      --count <COUNT>",
  "          Number of variants to generate",
  "  -o, --output <OUTPUT>",
  "          Directory receiving `<stem>_<n>.c` files",
  "      --no-nops",
  "          Disable decoy injection",
  "      --nop-probability <NOP_PROBABILITY>",
  "          Probability of wrapping a call in a decoy",
  "      --format <FORMATTER>",
  "          Formatter command each variant is piped through",
  "  -h, --help",
  "          Print help",
  ""]

def helpHelp : String := "\n".intercalate [
  "Print this message or the help of the given subcommand(s)",
  "",
  "Usage: vulnsynth help [COMMAND]...",
  "",
  "Arguments:",
  "  [COMMAND]...  Print help for the subcommand(s)",
  ""]

end Diversity.CommandLine
