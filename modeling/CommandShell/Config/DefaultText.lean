import CommandShell.Bytes

/-! The configuration file that a new configuration directory gets. -/
namespace CommandShell.Config

private def defaultLines : List String := [
  "# Name of the shell, shown in the banner and the \\s prompt escape and used to",
  "# prefix diagnostics.",
  "name: myshell",
  "",
  "# Prompt template. \\s is the shell name, \\u the user, \\h the host, \\w the",
  "# working directory with $HOME shortened to ~ and \\$ is # for root and $",
  "# otherwise.",
  "prompt: '\\s> '",
  "",
  "# Color the user, host and working directory parts of the prompt.",
  "color_prompt: false",
  "",
  "# Print \"welcome to <name>!\" on start and \"goodbye!\" on end of input.",
  "banner: true",
  "",
  "# Line history, relative to the configuration directory. Empty disables it.",
  "history_file: history",
  "",
  "# JSON lines log of commands, exit statuses and failures, relative to the",
  "# configuration directory. Empty disables it.",
  "event_log: events.log",
  "",
  "# Status reported by ( ... ) groups: \"discard\" always reports success,",
  "# \"propagate\" reports the status of the last command in the group.",
  "subshell_status: discard",
  "",
  "# Command aliases. The value is split into words the way a command line is,",
  "# without operators, and replaces the first word of matching commands:",
  "#",
  "#   aliases:",
  "#     ll: ls -l",
  "#     greet: echo \"hello there\"",
  "aliases: \x7b\x7d"]

def defaultText : Bytes := defaultLines.flatMap fun line => Bytes.ofString line ++ [10]

end CommandShell.Config
