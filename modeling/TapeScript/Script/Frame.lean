import TapeScript.Script.Statement
import TapeScript.Text.Indent

/-! The fixed text around the statements of a program. -/
namespace TapeScript.Script

def numberList (numbers : List Int) : String := ", ".intercalate (numbers.map toString)

/-- Declarations at the head of a program. The numbers are read before any line. -/
def declarations (numbers : List Int) : String :=
  s!"\"use strict\";
const d = new Int32Array({Tape.fullSize});
let p = {Tape.start};
let inp = [{numberList numbers}];
let ic = 0;
let b = 0;
let n = 0;
const done = () => (\x7b tape: d, pointer: p - {Tape.start} \x7d);
const readByte = () => \x7b
    if (ic >= inp.length) \x7b
        const line = rt.readLine();
        if (line == null)
            return -1;
        inp = Array.from(new TextEncoder().encode(line));
        inp.push(0);
        ic = 0;
    \x7d
    return inp[ic++];
\x7d;
"

def ending : String := "return done();\n"

/-- A function of the runtime, made of the statements of a program. -/
def function (numbers : List Int) (statements : String) : String :=
  "((rt) => \x7b\n" ++ Text.nest (declarations numbers ++ statements ++ ending) ++ "\x7d)"

/-- A function that makes a runtime from a file system: output is collected and written in chunks,
input is read byte by byte up to a line break. -/
def streamsRuntime : String :=
  "((fs) => \x7b
    const out = [];
    const flush = () => \x7b
        if (out.length) fs.writeSync(1, Buffer.from(out.splice(0)));
    \x7d;
    const readLine = () => \x7b
        flush();
        const chunk = Buffer.alloc(1);
        const bytes = [];
        for (;;) \x7b
            let n = 0;
            try \x7b
                n = fs.readSync(0, chunk, 0, 1, null);
            \x7d catch (e) \x7b
                if (e.code === \"EAGAIN\") continue;
                if (e.code !== \"EOF\") throw e;
            \x7d
            if (n == 0)
                return bytes.length ? Buffer.from(bytes).toString(\"utf8\") : null;
            if (chunk[0] == 10)
                return Buffer.from(bytes).toString(\"utf8\");
            bytes.push(chunk[0]);
        \x7d
    \x7d;
    const rt = \x7b
        write: v => \x7b
            out.push(v & 0xff);
            if (out.length >= 4096) flush();
        \x7d,
        readLine,
        debug: (cells, pos) => \x7b
            flush();
            console.error(\"@\" + pos + \": \" + cells.join(\" \"));
        \x7d,
    \x7d;
    return \x7b rt, flush \x7d;
\x7d)"

/-- A script that runs a program on the standard streams. -/
def standalone (program : String) : String :=
  s!"#!/usr/bin/env node
const program = {program};
const \x7b rt, flush \x7d = {streamsRuntime}(require(\"fs\"));
program(rt);
flush();
"

end TapeScript.Script
