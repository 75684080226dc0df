import IcFront.Library.Signature

/-!
# The standard library

The signature file that programs are compiled with unless they ask for another.
-/

namespace IcFront

/-- What the path of the standard library is given as. -/
def standardPath : String := "<libic.sig>"

/-- The signatures of the standard library. -/
def standardText : String :=
  "\n".intercalate
    ["// IC standard library signatures.",
      "class Library \x7b",
      "    static void println(string s);",
      "    static void print(string s);",
      "    static void printi(int i);",
      "    static void printb(boolean b);",
      "",
      "    static int readi();",
      "    static string readln();",
      "    static boolean eof();",
      "",
      "    static int stoi(string s, int n);",
      "    static string itos(int i);",
      "    static int[] stoa(string s);",
      "    static string atos(int[] a);",
      "",
      "    static int random(int i);",
      "    static int time();",
      "    static void exit(int i);",
      "\x7d",
      ""]

/-- The class of the standard library. -/
def loadStandard : Except LibraryError (ClassDecl Expr) := loadLibrary standardPath standardText

end IcFront
