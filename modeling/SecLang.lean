import SecLang.Go
import SecLang.Macro.Token
import SecLang.Macro.Compile
import SecLang.Macro.Scan
import SecLang.Macro.Template
import SecLang.Macro.Roundtrip
import SecLang.Macro.Errors
import SecLang.Macro.Accept
import SecLang.Macro.Expand
import SecLang.Macro.Normal
import SecLang.Operators.ArbitraryBytes
import SecLang.Operators.Rx
import SecLang.Collections.Named
import SecLang.Actions.Deny
